import Chip32.Vm

/-!
# The assembler's state, `c32asm.h`

A pointer into the source is the text that follows it; where that text ends
stands the terminating NUL. Running out of memory is left out.
-/
namespace Asm

open Runs Vm

abbrev Text := List Char

def nul : Char := '\x00'

/-- `*p`. -/
def deref (p : Text) : Char := p.headD nul

@[simp] theorem deref_nil : deref [] = nul := rfl
@[simp] theorem deref_cons (c : Char) (p : Text) : deref (c :: p) = c := rfl

/-- The `TK_` types the lexer gives a token. -/
inductive Tktype where
  | literalNum | literalChar | literalStr | auto | ram | addr | ptr | data | name | label
  deriving DecidableEq, Repr

/-- `lextoken_s`; `stop` is its `end`. -/
structure Lextoken where
  line : Nat
  type : Tktype
  start : Text
  stop : Text
  deriving DecidableEq, Repr

/-- The characters from `start` to `end`. -/
def Lextoken.text (tk : Lextoken) : List Char := tk.start.take (tk.start.length - tk.stop.length)

theorem Lextoken.text_mk (line : Nat) (type : Tktype) (t stop : Text) :
    (Lextoken.mk line type (t ++ stop) stop).text = t := by
  simp [Lextoken.text]

/-- `lexcmd_s`: the first `ntoken` of its tokens. -/
abbrev Lexcmd := List Lextoken

def maxToken : Nat := 64

/-- `DEC_TYPE_LABEL` and `DEC_TYPE_LITERAL_NUM`. -/
inductive DeclaredType where
  | label
  | literalNum
  deriving DecidableEq, Repr

/-- `declared_s`. -/
structure Declared where
  type : DeclaredType
  addr : Word
  name : List Char
  deriving DecidableEq, Repr

/-- `asmchip32_s`. `vcmd` and `mc` are as long as their counts say, and `declare`
is the content of the hash table of that name. -/
structure Asmchip32 where
  vcmd : List Lexcmd
  mc : List Command
  avaddr : BitVec 64
  declare : List Declared
  parse : Text
  line : Nat
  error : Option String
  deriving DecidableEq, Repr

/-- `chip32_compiler_new`, and the pointer `chip32_compiler_build` sets to its source. -/
def Asmchip32.new (code : Text) : Asmchip32 where
  vcmd := []
  mc := []
  avaddr := BitVec.ofNat 64 regLast.toNat
  declare := []
  parse := code
  line := 1
  error := none

/-- What C leaves undefined: a token past the last slot, a token nobody wrote, a
declaration that is not there. -/
inductive Fault where
  | tokenBounds
  | uninitialised
  | nullDereference
  deriving DecidableEq, Repr

/-- Why a call does not return `0`; `fail` is `-1` and what it leaves behind. -/
inductive Stop (α : Type) where
  | fault : Fault → Stop α
  | fail : α → Stop α
  deriving DecidableEq, Repr

end Asm
