import Chip32.Numbers
import Chip32.Operands

/-!
# Numbers in operands and initialisers

The lexer takes any run of digits and `-` for a number and `strtoul` makes something
of each of them, so an accepted number keeps its value exactly if it is one that has
a 32-bit value.
-/
namespace Asm

open Runs Vm

/-- The integer that digits behind an optional minus denote. -/
def integerOf (t : List Char) : Option Int :=
  match t with
  | '-' :: ds => if ds ≠ [] ∧ ds.all Char.isDigit then some (-Source.decimal ds) else none
  | ds => if ds ≠ [] ∧ ds.all Char.isDigit then some (Source.decimal ds) else none

/-- A text that denotes an integer of 32 bits is a numeral. -/
theorem exists_numeral {t : List Char} {n : Int} (h : integerOf t = some n)
    (hn : -2 ^ 31 ≤ n ∧ n < 2 ^ 32) : ∃ m : Source.Numeral, m.text = t ∧ m.value = n := by
  unfold integerOf at h
  split at h
  next ds =>
    split_ifs at h with hds
    cases h
    exact ⟨⟨true, ds, hds.1, List.all_eq_true.mp hds.2, by omega, fun _ => by omega⟩, rfl, rfl⟩
  next =>
    split_ifs at h with hds
    cases h
    exact ⟨⟨false, t, hds.1, List.all_eq_true.mp hds.2, by omega, nofun⟩, rfl, rfl⟩

/-- Where a line's token goes: the number of the command, among those the line emits,
and which of its arguments. -/
inductive GoesTo (cmd : Lexcmd) : Action → Nat → Nat → Bool → Prop
  | operand {a : Action} {pos : Nat} {second : Bool} (h : (pos, second) ∈ operands a cmd) :
      GoesTo cmd a pos 0 second
  | size : GoesTo cmd .initr (firstPos cmd) 0 false
  | value {init : Lextoken} (h : cmd[4]? = some init) (hlist : initValue init ≠ none) (j : Nat) :
      GoesTo cmd .declare (4 + j) j true

/-- A number of an accepted line that goes to an argument. -/
structure LiteralUse (code : Text) extends AcceptedLine code where
  action : Action
  action_ok : actionOf cmd = some action
  behind : Asmchip32
  run_line : parseStep state cmd = .ok behind
  pos : Nat
  index : Nat
  second : Bool
  goes : GoesTo cmd action pos index second
  token : Lextoken
  token_ok : cmd[pos]? = some token ∧ token.type = .literalNum
  command : Command
  command_ok : built.mc[state.mc.length + index]? = some command
  within : state.mc.length + index < behind.mc.length

/-- The words of a list are the values of its tokens. -/
theorem Storage.initValue_at {cmd : Lexcmd} {n : BitVec 64} {vs : List Word}
    (hst : Storage cmd n vs) {init tk : Lextoken} {j : Nat} (h₄ : cmd[4]? = some init)
    (hlist : initValue init ≠ none) (htk : cmd[4 + j]? = some tk) (hlt : j < vs.length) :
    initValue tk = some vs[j] := by
  cases hst with
  | cell => cases hlt
  | string _ _ h₄' hstr =>
    cases h₄.symm.trans h₄'
    exact absurd (by simp [initValue, hstr]) hlist
  | list _ _ _ _ _ _ _ hvs =>
    have hj := congrArg (·[j]?) hvs
    simpa [hlt, htk] using hj

section Literals

variable {code : Text} (u : LiteralUse code)

/-- The argument, without what a relative jump adds to it. -/
def LiteralUse.argument : Word := argOf u.command u.second - base u.action u.state u.second

/-- The number is well formed, has 32 bits, and is what the argument holds. -/
def LiteralUse.Kept : Prop :=
  ∃ n, integerOf u.token.text = some n ∧ -2 ^ 31 ≤ n ∧ n < 2 ^ 32 ∧ u.argument = BitVec.ofInt 32 n

/-- Digits behind an optional minus that denote an integer of 32 bits. -/
def LiteralUse.Numeral : Prop :=
  ∃ n, integerOf u.token.text = some n ∧ -2 ^ 31 ≤ n ∧ n < 2 ^ 32

/-- The argument is what `strtoul` makes of the token. -/
theorem LiteralUse.argument_eq : u.argument = number u.token.start := by
  obtain ⟨a, d, ha, htakes, hstep, hafter⟩ := u.takes
  cases ha.symm.trans u.action_ok
  cases hstep.symm.trans u.run_line
  obtain ⟨htk, ht⟩ := u.token_ok
  have hvalue : ∀ {d v}, valueOf d u.token = some v → v = number u.token.start := by
    intro d v hv
    simpa [valueOf, ht, eq_comm] using hv
  have hemitted : ∀ {ms : List Command} {m : Command}, u.behind.mc = u.state.mc ++ ms →
      ms[u.index]? = some m → u.command = m := fun hd hm =>
    Option.some.inj (u.command_ok.symm.trans (u.emitted hafter hd hm))
  have hgoes := u.goes
  have hwithin := u.within
  rw [LiteralUse.argument]
  generalize hpos : u.pos = pos at hgoes htk
  generalize hindex : u.index = index at hgoes hemitted hwithin
  generalize haction : u.action = action at hgoes htakes
  generalize u.second = second at hgoes ⊢
  cases hgoes with
  | operand hop =>
    obtain ⟨m, v, hd, hv, harg⟩ := operand_assembled htakes hop htk
    rw [hemitted hd rfl, harg, hvalue hv, BitVec.add_comm, BitVec.add_sub_cancel]
  | size =>
    obtain ⟨_, tk, htk', _, hd⟩ := htakes
    cases htk.symm.trans htk'
    have hmc := congrArg Asmchip32.mc hd
    rw [hemitted hmc rfl]
    exact BitVec.sub_zero _
  | value h₄ hlist j =>
    obtain ⟨name, pl, addr, dauto, n, vs, _, _, _, _, hst, _, hd⟩ := htakes
    have hmc : u.behind.mc = u.state.mc ++ moves addr 0 vs := by
      rw [hd]
      cases dauto <;> rfl
    rw [hmc, List.length_append, length_moves] at hwithin
    have hlt : index < vs.length := by omega
    have hinit := hst.initValue_at h₄ hlist htk hlt
    have hm : (moves addr 0 vs)[index]? = some ⟨modeBits .ram, Opcode.move.code,
        addr + BitVec.ofNat 32 (0 + index), vs[index]⟩ := by
      rw [getElem?_moves, List.getElem?_eq_getElem hlt, Option.map_some]
    rw [hemitted hmc hm]
    simp only [initValue, ht, Option.some.injEq] at hinit
    simp [argOf, base, hinit]

/-- A number keeps its value exactly if it has one of 32 bits. -/
theorem literal_kept_iff : u.Kept ↔ u.Numeral := by
  constructor
  · rintro ⟨n, hn, hlow, hhigh, _⟩
    exact ⟨n, hn, hlow, hhigh⟩
  · rintro ⟨n, hn, hlow, hhigh⟩
    obtain ⟨m, htext, rfl⟩ := exists_numeral hn ⟨hlow, hhigh⟩
    refine ⟨_, hn, hlow, hhigh, ?_⟩
    have hmem : u.cmd ∈ u.lexed.vcmd := by simp [u.lines]
    have hends := lexer_ends u.lexer_ok u.cmd hmem u.token (List.mem_of_getElem? u.token_ok.1)
    rw [u.argument_eq, number_of_text hends u.token_ok.2 htext.symm]
    rfl

end Literals

/-- `1-2` is a run of digits and `-`. -/
def dashSource : Text := "initr 64\nmove $1, 1-2\n".toList

def dashLexed : Asmchip32 := final (lexer (.new dashSource))

def dashLine (i : Nat) : Lexcmd := dashLexed.vcmd.getD i []

def dashUse : LiteralUse dashSource where
  lexed := dashLexed
  lexer_ok := ok_final (by decide +kernel)
  before := [dashLine 0]
  cmd := dashLine 1
  after := []
  lines := by decide +kernel
  state := final (run parseStep [dashLine 0] dashLexed)
  run_before := ok_final (by decide +kernel)
  built := final (build dashSource)
  build_ok := ok_final (by decide +kernel)
  action := .twoarg .move
  action_ok := by decide +kernel
  behind := final (build dashSource)
  run_line := ok_of_toOption (by decide +kernel)
  pos := 3
  index := 0
  second := true
  goes := .operand (by decide +kernel)
  token := (dashLine 1).getLastD ⟨0, .name, [], []⟩
  token_ok := by decide +kernel
  command := ⟨1, Opcode.move.code, 1, 1⟩
  command_ok := by decide +kernel
  within := by decide +kernel

/-- The source is accepted and `1-2` becomes 1. -/
theorem dash_accepted : ∃ u : LiteralUse dashSource, ¬ u.Kept := by
  refine ⟨dashUse, ?_⟩
  rintro ⟨n, hn, _⟩
  have hnone : integerOf dashUse.token.text = none := by decide +kernel
  rw [hnone] at hn
  cases hn

end Asm
