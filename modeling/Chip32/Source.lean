import Chip32.Asm
import Mathlib.Logic.Function.Iterate

/-!
# A source language and its meaning

Variables, data commands and relative jumps, interpreted on a memory of 32-bit
two's complement words. Commands are counted from 1, behind the `initr`; nothing
here knows how one is encoded.
-/
namespace Source

open Vm (Word)
open Asm (Tktype)

/-- The number that digits spell. -/
def decimal (ds : List Char) : Nat := ds.foldl (fun n c => 10 * n + (c.toNat - 48)) 0

/-- A decimal with an optional minus that fits 32 bits. -/
structure Numeral where
  neg : Bool
  digits : List Char
  nonempty : digits ≠ []
  digits_ok : ∀ c ∈ digits, c.isDigit
  fits : decimal digits < 2 ^ 32 ∧ (neg → decimal digits ≤ 2 ^ 31)

def Numeral.value (n : Numeral) : Int := if n.neg then -decimal n.digits else decimal n.digits

def Numeral.word (n : Numeral) : Word := BitVec.ofInt 32 n.value

def Numeral.text (n : Numeral) : List Char := if n.neg then '-' :: n.digits else n.digits

/-- A variable or the number of a cell. -/
inductive Loc where
  | var (x : List Char)
  | cell (n : Numeral)

/-- `$v` or `*v`. -/
inductive Dest where
  | ram (v : Loc)
  | ptr (v : Loc)

/-- `$v`, `*v`, `&v`, or `v` alone. -/
inductive Src where
  | ram (v : Loc)
  | ptr (v : Loc)
  | addr (v : Loc)
  | plain (v : Loc)

inductive Binary where
  | move | sum | dif | mul | or | xor | and | not | bor | band
  deriving DecidableEq, Repr

inductive Unary where
  | inc | dec | bnot
  deriving DecidableEq, Repr

inductive Instr where
  | binary (op : Binary) (d : Dest) (s : Src)
  | unary (op : Unary) (d : Dest)
  | jmpi (n : Numeral)
  | ift (d : Dest) (n : Numeral)
  | iff (d : Dest) (n : Numeral)

inductive Line where
  | declare (x : List Char)
  | instr (i : Instr)

/-- `initr` and lines. -/
structure Program where
  size : Numeral
  lines : List Line

/-- The variables that lines declare, in their order. -/
def varsOf (lines : List Line) : List (List Char) :=
  lines.filterMap fun | .declare x => some x | .instr _ => none

def instrs (lines : List Line) : List Instr :=
  lines.filterMap fun | .declare _ => none | .instr i => some i

abbrev Program.vars (p : Program) : List (List Char) := varsOf p.lines

abbrev Program.code (p : Program) : List Instr := instrs p.lines

def Loc.token : Loc → Tktype × List Char
  | .var x => (.name, x)
  | .cell n => (.literalNum, n.text)

def Dest.tokens : Dest → List (Tktype × List Char)
  | .ram v => [(.ram, ['$']), v.token]
  | .ptr v => [(.ptr, ['*']), v.token]

def Src.tokens : Src → List (Tktype × List Char)
  | .ram v => [(.ram, ['$']), v.token]
  | .ptr v => [(.ptr, ['*']), v.token]
  | .addr v => [(.addr, ['&']), v.token]
  | .plain v => [v.token]

def Binary.name : Binary → String
  | move => "move" | sum => "sum" | dif => "dif" | mul => "mul" | or => "or" | xor => "xor"
  | and => "and" | not => "not" | bor => "bor" | band => "band"

def Unary.name : Unary → String
  | inc => "inc" | dec => "dec" | bnot => "bnot"

def Instr.tokens : Instr → List (Tktype × List Char)
  | .binary op d s => (.name, op.name.toList) :: (d.tokens ++ s.tokens)
  | .unary op d => (.name, op.name.toList) :: d.tokens
  | .jmpi n => [(.name, "jmpi".toList), (.literalNum, n.text)]
  | .ift d n => (.name, "ift".toList) :: (d.tokens ++ [(.literalNum, n.text)])
  | .iff d n => (.name, "iff".toList) :: (d.tokens ++ [(.literalNum, n.text)])

def Line.tokens : Line → List (Tktype × List Char)
  | .declare x => [(.name, "declare".toList), (.name, x), (.auto, ['?'])]
  | .instr i => i.tokens

/-- The types and the texts of the tokens, line by line. -/
def Program.tokens (p : Program) : List (List (Tktype × List Char)) :=
  [(.name, "initr".toList), (.literalNum, p.size.text)] :: p.lines.map Line.tokens

/-- Memory, by the number of a cell. -/
abbrev Mem := Word → Word

/-- The memory and the number of the next command. -/
structure State where
  mem : Mem
  pc : Nat

section Operands

variable (vars : List (List Char)) (m : Mem)

/-- The cell of the `i`-th variable is `35 + i`. -/
def Loc.number : Loc → Word
  | .var x => BitVec.ofNat 32 (35 + vars.idxOf x)
  | .cell n => n.word

/-- The cell a destination stands for. -/
def Dest.cell : Dest → Word
  | .ram v => v.number vars
  | .ptr v => m (v.number vars)

def Src.value : Src → Word
  | .ram v => m (v.number vars)
  | .ptr v => m (m (v.number vars))
  | .addr v | .plain v => v.number vars

/-- The cells that are read on the way to a destination, and itself. -/
def Dest.touches : Dest → List Word
  | .ram v => [v.number vars]
  | .ptr v => [v.number vars, m (v.number vars)]

def Src.touches : Src → List Word
  | .ram v => [v.number vars]
  | .ptr v => [v.number vars, m (v.number vars)]
  | .addr _ | .plain _ => []

end Operands

def truth (p : Prop) [Decidable p] : Word := if p then 1 else 0

/-- `not` complements its destination. -/
def Binary.apply : Binary → Word → Word → Word
  | .move, _, y => y
  | .sum, x, y => x + y
  | .dif, x, y => x - y
  | .mul, x, y => x * y
  | .or, x, y => x ||| y
  | .xor, x, y => x ^^^ y
  | .and, x, y => x &&& y
  | .not, x, _ => ~~~x
  | .bor, x, y => truth (x ≠ 0 ∨ y ≠ 0)
  | .band, x, y => truth (x ≠ 0 ∧ y ≠ 0)

/-- Whether the source is looked at, the destination being `x`. -/
def Binary.reads (op : Binary) (x : Word) : Bool :=
  match op with
  | .not => false
  | .bor => x = 0
  | .band => x ≠ 0
  | _ => true

def Unary.apply : Unary → Word → Word
  | .inc, x => x + 1
  | .dec, x => x - 1
  | .bnot, x => truth (x = 0)

/-- `n` commands past the next one. -/
def target (pc : Nat) (n : Numeral) : Int := pc + 1 + n.word.toInt

section Commands

variable (vars : List (List Char)) (s : State)

/-- The memory a command leaves. -/
def Instr.effect : Instr → Mem
  | .binary op d x =>
    Function.update s.mem (d.cell vars s.mem)
      (op.apply (s.mem (d.cell vars s.mem)) (x.value vars s.mem))
  | .unary op d =>
    Function.update s.mem (d.cell vars s.mem) (op.apply (s.mem (d.cell vars s.mem)))
  | _ => s.mem

/-- Where a command jumps to, if it does: `ift` does where the cell is zero, `iff`
where it is not. -/
def Instr.jump : Instr → Option Int
  | .jmpi n => some (target s.pc n)
  | .ift d n => if s.mem (d.cell vars s.mem) = 0 then some (target s.pc n) else none
  | .iff d n => if s.mem (d.cell vars s.mem) ≠ 0 then some (target s.pc n) else none
  | _ => none

def Instr.exec (i : Instr) : State where
  mem := i.effect vars s
  pc := match i.jump vars s with
    | some t => t.toNat
    | none => s.pc + 1

/-- The cells a command touches. -/
def Instr.touches : Instr → List Word
  | .binary op d x =>
    d.touches vars s.mem ++
      if op.reads (s.mem (d.cell vars s.mem)) then x.touches vars s.mem else []
  | .unary _ d | .ift d _ | .iff d _ => d.touches vars s.mem
  | .jmpi _ => []

end Commands

/-- The command that is next. Behind the last one there is none. -/
def Program.next (p : Program) (s : State) : Option Instr := p.code[s.pc - 1]?

/-- A step; behind the last command nothing changes. -/
def step (p : Program) (s : State) : State :=
  match p.next s with
  | none => s
  | some i => i.exec p.vars s

/-- `k` steps. -/
def steps (p : Program) (k : Nat) (s : State) : State := (step p)^[k] s

/-- The memory that `initr` leaves, whatever words it was given, and the first command. -/
def Program.initial (p : Program) (words : Nat → Word) : State where
  mem r := if r = 33 ∨ r = 34 then p.size.word - 1 else words r.toNat
  pc := 1

/-- A cell of `0..N-1` that is no register. -/
def Usable (size : Word) (r : Word) : Prop :=
  0 ≤ r.toInt ∧ r.toInt < size.toNat ∧ r ≠ 32 ∧ r ≠ 33 ∧ r ≠ 34

instance (size r : Word) : Decidable (Usable size r) := inferInstanceAs (Decidable (_ ∧ _))

/-- The next command touches usable cells only, and where it jumps it lands in `1..`
the number of commands, the `initr` included. -/
def Safe (p : Program) (s : State) : Prop :=
  ∀ i ∈ p.next s, (∀ r ∈ i.touches p.vars s, Usable p.size.word r) ∧
    ∀ t ∈ i.jump p.vars s, 1 ≤ t ∧ t ≤ p.code.length + 1

instance (p : Program) (s : State) : Decidable (Safe p s) :=
  inferInstanceAs (Decidable (∀ i ∈ p.next s, _))

end Source
