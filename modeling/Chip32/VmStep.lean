import Chip32.VmCells

/-!
# One command

What a command does to the machine, from the operands as they were before it.
A destination is looked up twice, once to read and once to write, but nothing is
written in between: pointer, source, destination and the PC may all be one cell.
-/
namespace Vm

/-- The cells an operand is read through are cells of RAM. -/
def Reaches (ram : List Word) (type : Mode) (r : Word) : Prop :=
  match type with
  | .ram => InRam ram r
  | .ptr => InRam ram r ∧ InRam ram (cell ram r)
  | _ => True

instance (ram : List Word) (type : Mode) (r : Word) : Decidable (Reaches ram type r) := by
  cases type <;> unfold Reaches <;> infer_instance

/-- The value of an operand. -/
def value (h : Host) (ram : List Word) (type : Mode) (r : Word) : Word :=
  match type with
  | .literal => r
  | .ram => cell ram r
  | .ptr => cell ram (cell ram r)
  | .data => ((h.dataLoad r [h.tmp]).2.headD h.tmp).arg0

/-- The cell an operand stands for. -/
def destination (ram : List Word) (type : Mode) (r : Word) : Option Word :=
  match type with
  | .ram => some r
  | .ptr => some (cell ram r)
  | _ => none

/-- The loader has no command for an `@` operand. -/
def Unloaded (h : Host) (type : Mode) (r : Word) : Prop :=
  type = .data ∧ (h.dataLoad r [h.tmp]).1 ≠ 1

instance (h : Host) (type : Mode) (r : Word) : Decidable (Unloaded h type r) :=
  inferInstanceAs (Decidable (_ ∧ _))

/-- The machine that FAILs if `p`. -/
def Chip.failIf (c : Chip) (p : Prop) [Decidable p] : Chip :=
  { c with state := if p then .fail else c.state }

/-- The machine after a store to an operand. -/
def Chip.put (c : Chip) (type : Mode) (r v : Word) : Chip :=
  match destination c.ram type r with
  | some a => { c with ram := c.ram.set a.toNat v }
  | none => { c with state := .fail, stdout := c.stdout ++ "setword fail\n" }

section Operands

variable {h : Host} {c : Chip} {type : Mode} {r v : Word}

@[simp] theorem failIf_ram (p : Prop) [Decidable p] : (c.failIf p).ram = c.ram := rfl

theorem failIf_false {p : Prop} [Decidable p] (hp : ¬ p) : c.failIf p = c := by
  rw [Chip.failIf, if_neg hp]

theorem getword_reaches (hr : Reaches c.ram type r) :
    getword h c type r = .ok (value h c.ram type r, c.failIf (Unloaded h type r)) := by
  cases type with
  | literal => rw [failIf_false (fun hu => nomatch hu.1)]; rfl
  | ram => rw [failIf_false (fun hu => nomatch hu.1), getword, load_ok hr]; rfl
  | ptr =>
    rw [failIf_false (fun hu => nomatch hu.1), getword, load_ok hr.1, Runs.ok_bind, load_ok hr.2]
    rfl
  | data =>
    by_cases hn : (h.dataLoad r [h.tmp]).1 = 1 <;> simp [getword, value, Chip.failIf, Unloaded, hn]

/-- An operand that was read is one. -/
theorem reaches_of_getword {x : Word × Chip} (hg : getword h c type r = .ok x) : Reaches c.ram type r := by
  cases type with
  | literal | data => trivial
  | ram =>
    obtain ⟨_, hv, _⟩ := Runs.bind_eq_ok.mp hg
    exact (load_eq_ok.mp hv).1
  | ptr =>
    obtain ⟨a, ha, hg⟩ := Runs.bind_eq_ok.mp hg
    obtain ⟨_, hv, _⟩ := Runs.bind_eq_ok.mp hg
    obtain ⟨hin, rfl⟩ := load_eq_ok.mp ha
    exact ⟨hin, (load_eq_ok.mp hv).1⟩

theorem setword_reaches (hr : Reaches c.ram type r) : setword c type r v = .ok (c.put type r v) := by
  cases type with
  | literal | data => rfl
  | ram => exact store_ok hr
  | ptr =>
    rw [setword, load_ok hr.1, Runs.ok_bind]
    exact store_ok hr.2

theorem put_failIf {p : Prop} [Decidable p] :
    (c.failIf p).put type r v = (c.put type r v).failIf p := by
  unfold Chip.put
  rw [failIf_ram]
  cases destination c.ram type r <;> simp [Chip.failIf]

/-- An `@` destination FAILs anyway. -/
theorem put_unloaded : (c.put type r v).failIf (Unloaded h type r) = c.put type r v := by
  cases type with
  | data => simp [Chip.put, Chip.failIf, destination]
  | _ => exact failIf_false fun hu => nomatch hu.1

@[simp] theorem length_put : (c.put type r v).ram.length = c.ram.length := by
  unfold Chip.put
  cases destination c.ram type r <;> simp

theorem inRam_put {s : Word} : InRam (c.put type r v).ram s ↔ InRam c.ram s := by
  rw [InRam, InRam, length_put]

theorem getword_eq {x : Word × Chip} (hg : getword h c type r = .ok x) :
    x = (value h c.ram type r, c.failIf (Unloaded h type r)) :=
  Except.ok.inj (hg.symm.trans (getword_reaches (reaches_of_getword hg)))

theorem setword_eq {d : Chip} (hs : setword c type r v = .ok d) : d = c.put type r v := by
  cases type with
  | literal | data =>
    cases hs
    rfl
  | ram =>
    obtain ⟨_, rfl⟩ := store_eq_ok.mp hs
    rfl
  | ptr =>
    obtain ⟨a, ha, hs⟩ := Runs.bind_eq_ok.mp hs
    obtain ⟨_, rfl⟩ := load_eq_ok.mp ha
    obtain ⟨_, rfl⟩ := store_eq_ok.mp hs
    rfl

/-- RAM after one step of a copy. -/
def copyStep (h : Host) (ram : List Word) (type : Mode) (d s : Word) : List Word :=
  match destination ram type d with
  | some a => ram.set a.toNat (value h ram type s)
  | none => ram

theorem copyStep_put {d s : Word} :
    (c.put type d (value h c.ram type s)).ram = copyStep h c.ram type d s := by
  unfold Chip.put copyStep
  cases destination c.ram type d <;> rfl

end Operands

/-- What the table makes of the old destination and the source; division truncates. -/
def table : Opcode → Option (Word → Word → Word)
  | .move => some fun _ y => y
  | .inc => some fun x _ => x + 1
  | .dec => some fun x _ => x - 1
  | .sum => some fun x y => x + y
  | .dif => some fun x y => x - y
  | .mul => some fun x y => x * y
  | .div => some fun x y => BitVec.ofInt 32 (x.toInt.tdiv y.toInt)
  | .mod => some fun x y => BitVec.ofInt 32 (x.toInt.tmod y.toInt)
  | .or => some fun x y => x ||| y
  | .xor => some fun x y => x ^^^ y
  | .and => some fun x y => x &&& y
  | .not => some fun x _ => ~~~x
  | .shl => some fun x y => x <<< y.toNat
  | .shr => some fun x y => x.sshiftRight y.toNat
  | .rol => some fun x y => x <<< y.toNat ||| x >>> (32 - y.toNat)
  | .bor => some fun x y => ofBool (x ≠ 0 ∨ y ≠ 0)
  | .band => some fun x y => ofBool (x ≠ 0 ∧ y ≠ 0)
  | .bnot => some fun x _ => ofBool (x = 0)
  | _ => none

/-- Where C defines the operator. -/
def Defined (op : Opcode) (x y : Word) : Prop :=
  match op with
  | .div | .mod => y ≠ 0 ∧ ¬ (x = BitVec.intMin 32 ∧ y = -1)
  | .shl | .shr => y.toNat < 32
  | .rol => 1 ≤ y.toNat ∧ y.toNat < 32
  | _ => True

/-- Whether the second operand is looked at, the first one being `x`. -/
def looksAt (op : Opcode) (x : Word) : Bool :=
  match op with
  | .inc | .dec | .not | .bnot | .jmp => false
  | .bor | .ift => x = 0
  | .band | .iff => x ≠ 0
  | _ => true

/-- The test of a conditional jump. -/
def taken (op : Opcode) (x : Word) : Option Bool :=
  match op with
  | .ift => some (x = 0)
  | .iff => some (x ≠ 0)
  | _ => none

/-- RAM with the PC incremented. -/
def tick (ram : List Word) : List Word := ram.set regPc.toNat (cell ram regPc + 1)

/-- RAM with the PC set. -/
def goto (ram : List Word) (v : Word) : List Word := ram.set regPc.toNat v

section Command

variable (h : Host) (c : Chip) (pcmd : Command)

/-- The operands of a command, in the machine before it. -/
def operand0 : Word := value h c.ram (arg0fGet pcmd.flags) pcmd.arg0

def operand1 : Word := value h c.ram (arg1fGet pcmd.flags) pcmd.arg1

/-- The operands that a command looks at are in RAM, C defines its result, and
there is a PC. -/
structure Ready : Prop where
  pc : InRam c.ram regPc
  first : Reaches c.ram (arg0fGet pcmd.flags) pcmd.arg0
  second : looksAt (.ofCode pcmd.cmd) (operand0 h c pcmd) →
    Reaches c.ram (arg1fGet pcmd.flags) pcmd.arg1
  defined : Defined (.ofCode pcmd.cmd) (operand0 h c pcmd) (operand1 h c pcmd)

/-- The second operand is an `@` one that is looked at and cannot be loaded. -/
def Starved : Prop :=
  looksAt (.ofCode pcmd.cmd) (operand0 h c pcmd) ∧ Unloaded h (arg1fGet pcmd.flags) pcmd.arg1

instance : Decidable (Starved h c pcmd) := inferInstanceAs (Decidable (_ ∧ _))

end Command

section Handlers

variable {h : Host} {c : Chip} {pcmd : Command}

theorem unary_reaches (op : Word → Word) (hr : Reaches c.ram (arg0fGet pcmd.flags) pcmd.arg0) :
    cmdUnary op h c pcmd =
      .ok (c.put (arg0fGet pcmd.flags) pcmd.arg0 (op (operand0 h c pcmd)), pcmd) := by
  rw [cmdUnary, getword_reaches hr, Runs.ok_bind]
  simp only [setword_reaches (c := c.failIf _) hr, put_failIf, put_unloaded, Runs.ok_bind]
  rfl

theorem binary_reaches {op : Word → Word → Except Fault Word} {v : Word}
    (hr : Reaches c.ram (arg0fGet pcmd.flags) pcmd.arg0)
    (hr' : Reaches c.ram (arg1fGet pcmd.flags) pcmd.arg1)
    (hop : op (operand0 h c pcmd) (operand1 h c pcmd) = .ok v) :
    cmdBinary op h c pcmd = .ok ((c.put (arg0fGet pcmd.flags) pcmd.arg0 v).failIf
      (Unloaded h (arg1fGet pcmd.flags) pcmd.arg1), pcmd) := by
  have hop' : op (value h c.ram (arg0fGet pcmd.flags) pcmd.arg0)
      (value h c.ram (arg1fGet pcmd.flags) pcmd.arg1) = .ok v := hop
  rw [cmdBinary, getword_reaches hr, Runs.ok_bind]
  simp only [getword_reaches (c := c.failIf _) hr', failIf_ram, Runs.ok_bind, hop',
    setword_reaches (c := (c.failIf _).failIf _) hr, put_failIf, put_unloaded]
  rfl

theorem move_reaches (hr : Reaches c.ram (arg0fGet pcmd.flags) pcmd.arg0)
    (hr' : Reaches c.ram (arg1fGet pcmd.flags) pcmd.arg1) :
    cmdMove h c pcmd = .ok ((c.put (arg0fGet pcmd.flags) pcmd.arg0 (operand1 h c pcmd)).failIf
      (Unloaded h (arg1fGet pcmd.flags) pcmd.arg1), pcmd) := by
  rw [cmdMove, getword_reaches hr', Runs.ok_bind]
  simp only [setword_reaches (c := c.failIf _) hr, put_failIf, Runs.ok_bind]
  rfl

/-- `||` and `&&`: the second operand is looked at where the first one has not decided. -/
theorem logical_reaches (decide : Word → Option Bool)
    (hr : Reaches c.ram (arg0fGet pcmd.flags) pcmd.arg0)
    (hr' : decide (operand0 h c pcmd) = none → Reaches c.ram (arg1fGet pcmd.flags) pcmd.arg1) :
    cmdLogical decide h c pcmd = .ok ((c.put (arg0fGet pcmd.flags) pcmd.arg0
        (ofBool ((decide (operand0 h c pcmd)).getD (operand1 h c pcmd ≠ 0)))).failIf
      (decide (operand0 h c pcmd) = none ∧ Unloaded h (arg1fGet pcmd.flags) pcmd.arg1), pcmd) := by
  rw [cmdLogical, getword_reaches hr, Runs.ok_bind]
  change (rightOperand h _ pcmd (decide (operand0 h c pcmd)) >>= _) = _
  cases hd : decide (operand0 h c pcmd) with
  | some b =>
    have hn : ¬ (some b = none ∧ Unloaded h (arg1fGet pcmd.flags) pcmd.arg1) := fun hn => nomatch hn.1
    rw [failIf_false hn]
    simp only [rightOperand, Runs.pure_ok, Runs.ok_bind, setword_reaches (c := c.failIf _) hr,
      put_failIf, put_unloaded]
    rfl
  | none =>
    simp only [rightOperand, getword_reaches (c := c.failIf _) (hr' hd), failIf_ram, Runs.ok_bind,
      Runs.pure_ok, setword_reaches (c := (c.failIf _).failIf _) hr, put_failIf, put_unloaded,
      true_and]
    rfl

theorem sdiv_eq (x y : Word) (hy : y ≠ 0 ∧ ¬ (x = BitVec.intMin 32 ∧ y = -1)) :
    divides x y = true ∧ x.sdiv y = BitVec.ofInt 32 (x.toInt.tdiv y.toInt) ∧
      x.srem y = BitVec.ofInt 32 (x.toInt.tmod y.toInt) := by
  refine ⟨by simpa [divides, ← imp_iff_not_or] using hy, ?_, ?_⟩
  · rw [← BitVec.toInt_sdiv_of_ne_or_ne x y (not_and_or.mp hy.2), BitVec.ofInt_toInt]
  · rw [← BitVec.toInt_srem, BitVec.ofInt_toInt]

theorem rotated_eq (x y : Word) (hy : 1 ≤ y.toNat ∧ y.toNat < 32) :
    rotated x y = .ok (x <<< y.toNat ||| x >>> (32 - y.toNat)) := by
  have hsub : (32 - y : Word).toNat = 32 - y.toNat := by
    rw [BitVec.toNat_sub_of_le (by rw [BitVec.le_def]; exact Nat.le_of_lt hy.2)]
    rfl
  have hpos : 0 < y.toNat ∧ y.toNat < 32 := hy
  rw [rotated, if_pos hpos, BitVec.shiftLeft_eq', BitVec.ushiftRight_eq', hsub]

/-- Every data command is the table's function. -/
theorem commands_data {op : Opcode} {f : Word → Word → Word} (hf : table op = some f)
    (hfst : Reaches c.ram (arg0fGet pcmd.flags) pcmd.arg0)
    (hsnd : looksAt op (operand0 h c pcmd) → Reaches c.ram (arg1fGet pcmd.flags) pcmd.arg1)
    (hdef : Defined op (operand0 h c pcmd) (operand1 h c pcmd)) :
    commands op h c pcmd =
      .ok ((c.put (arg0fGet pcmd.flags) pcmd.arg0 (f (operand0 h c pcmd) (operand1 h c pcmd))).failIf
        (looksAt op (operand0 h c pcmd) ∧ Unloaded h (arg1fGet pcmd.flags) pcmd.arg1), pcmd) := by
  cases op with
  | move =>
    cases hf
    simp only [looksAt, true_and]
    exact move_reaches hfst (hsnd rfl)
  | inc =>
    cases hf
    rw [failIf_false fun hn => nomatch hn.1]
    exact unary_reaches (fun x => x + 1) hfst
  | dec =>
    cases hf
    rw [failIf_false fun hn => nomatch hn.1]
    exact unary_reaches (fun x => x - 1) hfst
  | not =>
    cases hf
    rw [failIf_false fun hn => nomatch hn.1]
    exact unary_reaches (fun x => ~~~x) hfst
  | bnot =>
    cases hf
    rw [failIf_false fun hn => nomatch hn.1]
    exact unary_reaches (fun x => ofBool (x = 0)) hfst
  | sum | dif | mul | or | xor | and =>
    cases hf
    simp only [looksAt, true_and, commands]
    exact binary_reaches hfst (hsnd rfl) rfl
  | div =>
    cases hf
    obtain ⟨hd, hq, _⟩ := sdiv_eq _ _ hdef
    simp only [looksAt, true_and, commands, cmdDiv, ← hq]
    exact binary_reaches hfst (hsnd rfl) (if_pos hd)
  | mod =>
    cases hf
    obtain ⟨hd, _, hm⟩ := sdiv_eq _ _ hdef
    simp only [looksAt, true_and, commands, cmdMod, ← hm]
    exact binary_reaches hfst (hsnd rfl) (if_pos hd)
  | shl | shr =>
    cases hf
    simp only [looksAt, true_and, commands, cmdShl, cmdShr]
    exact binary_reaches hfst (hsnd rfl) (if_pos hdef)
  | rol =>
    cases hf
    simp only [looksAt, true_and, commands, cmdRol]
    exact binary_reaches hfst (hsnd rfl) (rotated_eq _ _ hdef)
  | bor =>
    cases hf
    have hlog := logical_reaches (fun x => if x ≠ 0 then some true else none) hfst
      (by simpa [looksAt] using hsnd)
    by_cases hx : operand0 h c pcmd = 0#32 <;> simpa [hx, looksAt, commands, cmdBor] using hlog
  | band =>
    cases hf
    have hlog := logical_reaches (fun x => if x = 0 then some false else none) hfst
      (by simpa [looksAt] using hsnd)
    by_cases hx : operand0 h c pcmd = 0#32 <;> simpa [hx, looksAt, commands, cmdBand] using hlog
  | _ => cases hf

theorem jmp_reaches (hpc : InRam c.ram regPc)
    (hr : Reaches c.ram (arg0fGet pcmd.flags) pcmd.arg0) :
    cmdJmp h c pcmd = .ok ({ c.failIf (Unloaded h (arg0fGet pcmd.flags) pcmd.arg0) with
      ram := goto c.ram (operand0 h c pcmd - 1) }, pcmd) := by
  rw [cmdJmp, getword_reaches hr, Runs.ok_bind]
  simp only [store_ok (c := c.failIf _) hpc, Runs.ok_bind]
  rfl

theorem jumpIf_reaches {test : Word → Bool} (hpc : InRam c.ram regPc)
    (hr : Reaches c.ram (arg0fGet pcmd.flags) pcmd.arg0)
    (hr' : test (operand0 h c pcmd) → Reaches c.ram (arg1fGet pcmd.flags) pcmd.arg1) :
    cmdJumpIf test h c pcmd =
      .ok ({ c.failIf (Unloaded h (arg0fGet pcmd.flags) pcmd.arg0 ∨
          test (operand0 h c pcmd) ∧ Unloaded h (arg1fGet pcmd.flags) pcmd.arg1) with
        ram := if test (operand0 h c pcmd) then goto c.ram (operand1 h c pcmd - 1) else c.ram },
        pcmd) := by
  rw [cmdJumpIf, getword_reaches hr, Runs.ok_bind]
  change (jumpIf h _ pcmd (test (operand0 h c pcmd)) >>= _) = _
  cases ht : test (operand0 h c pcmd) with
  | false => simp [jumpIf, Chip.failIf]
  | true =>
    simp only [jumpIf, if_true, getword_reaches (c := c.failIf _) (hr' ht), failIf_ram,
      Runs.ok_bind, store_ok (c := (c.failIf _).failIf _) hpc, true_and]
    simp only [Chip.failIf, goto, operand1, Runs.pure_ok]
    by_cases hu : Unloaded h (arg0fGet pcmd.flags) pcmd.arg0 <;> simp [hu]

end Handlers

theorem goto_tick {ram : List Word} (v : Word) (hpc : InRam ram regPc) :
    tick (goto ram (v - 1)) = goto ram v := by
  rw [tick, goto, cell_set_self hpc, List.set_set, BitVec.sub_add_cancel]
  rfl

theorem commands_taken {h : Host} {c : Chip} {pcmd : Command} {op : Opcode} {x : Word} {b : Bool}
    (hb : taken op x = some b) :
    ∃ test, commands op h c pcmd = cmdJumpIf test h c pcmd ∧ test x = b ∧ looksAt op x = b := by
  cases op with
  | ift => exact ⟨fun v => v = 0, rfl, Option.some.inj hb, Option.some.inj hb⟩
  | iff => exact ⟨fun v => v ≠ 0, rfl, Option.some.inj hb, Option.some.inj hb⟩
  | _ => cases hb

/-- One command, from the operands as they were before it: a data command stores the
table's value, whatever cells coincide, and FAILs without a cell to store to; a jump
that is taken goes to its operand; everything else stays as it was, but for the PC,
which is incremented where no jump is taken, and the FAIL of an `@` operand that
cannot be loaded. -/
theorem one_step (h : Host) (c : Chip) (pcmd : Command) (hr : Ready h c pcmd) :
    (∀ f, table (.ofCode pcmd.cmd) = some f →
      execute h c pcmd = .ok
        (match destination c.ram (arg0fGet pcmd.flags) pcmd.arg0 with
          | some d => { c with
              ram := tick (c.ram.set d.toNat (f (operand0 h c pcmd) (operand1 h c pcmd)))
              state := if Starved h c pcmd then .fail else c.state }
          | none => { c with
              ram := tick c.ram
              state := .fail
              stdout := c.stdout ++ "setword fail\n" }, pcmd)) ∧
    (Opcode.ofCode pcmd.cmd = .jmp → execute h c pcmd = .ok
      ({ c with
          ram := goto c.ram (operand0 h c pcmd)
          state := if Unloaded h (arg0fGet pcmd.flags) pcmd.arg0 then .fail else c.state }, pcmd)) ∧
    ∀ b, taken (.ofCode pcmd.cmd) (operand0 h c pcmd) = some b → execute h c pcmd = .ok
      ({ c with
          ram := if b then goto c.ram (operand1 h c pcmd) else tick c.ram
          state := if Unloaded h (arg0fGet pcmd.flags) pcmd.arg0 ∨ Starved h c pcmd then .fail
            else c.state }, pcmd) := by
  obtain ⟨hpc, hfst, hsnd, hdef⟩ := hr
  refine ⟨fun f hf => ?_, fun hop => ?_, fun b hb => ?_⟩
  · rw [execute_ok (commands_data hf hfst hsnd hdef) (inRam_put.mpr hpc)]
    unfold Chip.put
    cases destination c.ram (arg0fGet pcmd.flags) pcmd.arg0 with
    | some d => rfl
    | none => simp [Chip.failIf, tick]
  · have hcmd : commands (.ofCode pcmd.cmd) h c pcmd = cmdJmp h c pcmd := by rw [hop]; rfl
    rw [execute_ok (hcmd.trans (jmp_reaches hpc hfst)) (by simpa [goto] using hpc),
      ← goto_tick (operand0 h c pcmd) hpc]
    rfl
  · obtain ⟨test, hcmd, ht, hlook⟩ := commands_taken (h := h) (c := c) hb
    have hsnd' : test (operand0 h c pcmd) → Reaches c.ram (arg1fGet pcmd.flags) pcmd.arg1 := by
      rw [ht, ← hlook]
      exact hsnd
    have hstarved : Starved h c pcmd ↔ b ∧ Unloaded h (arg1fGet pcmd.flags) pcmd.arg1 := by
      rw [Starved, hlook]
    have hjump := hcmd.trans (jumpIf_reaches (h := h) hpc hfst hsnd')
    rw [ht] at hjump
    simp only [hstarved]
    cases b with
    | true =>
      rw [execute_ok hjump (by simpa [goto] using hpc), if_pos rfl, if_pos rfl,
        ← goto_tick (operand1 h c pcmd) hpc]
      rfl
    | false =>
      rw [execute_ok hjump hpc]
      rfl

/-- A machine without a program. -/
def emptyHost : Host where
  dataLoad _ data := (0, data)
  length_dataLoad _ _ := rfl
  malloc _ := none
  tmp := ⟨0, 0, 0, 0⟩
  stkFirst := true

/-- The PC cell holds its own number. -/
def selfChip : Chip := { Chip.new [] with ram := List.replicate 32 0 ++ [32, 35, 35, 0] }

/-- `sum *32, $32`: pointer, destination, source and PC are the cell 32. -/
theorem one_step_alias :
    execute emptyHost selfChip ⟨6, 0x04, 32, 32⟩ =
      .ok ({ selfChip with ram := List.replicate 32 0 ++ [65, 35, 35, 0] }, ⟨6, 0x04, 32, 32⟩) :=
  (one_step emptyHost selfChip ⟨6, 0x04, 32, 32⟩
    ⟨by decide, by decide, fun _ => by decide, trivial⟩).1 (fun x y => x + y) rfl

/-- What goes wrong where C does not define the operator. -/
def trap : Opcode → Option Fault
  | .div | .mod => some .division
  | .shl | .shr | .rol | .ror => some .shift
  | _ => none

/-- The operator of a handler; `ror` has that of `rol`. -/
def written (op : Opcode) : Opcode := if op = .ror then .rol else op

/-- C defines the result, or the command FAILs and stores nothing. -/
def TrapFree (h : Host) (c : Chip) (op : Opcode) (pcmd : Command) : Prop :=
  Defined (written op) (operand0 h c pcmd) (operand1 h c pcmd) ∨
    ∃ d q, commands op h c pcmd = .ok (d, q) ∧ d.ram = c.ram ∧ d.state = .fail

section Traps

variable {h : Host} {c : Chip} {pcmd : Command} {op : Opcode} {e : Fault}

theorem binary_error {f : Word → Word → Except Fault Word}
    (hr : Reaches c.ram (arg0fGet pcmd.flags) pcmd.arg0)
    (hr' : Reaches c.ram (arg1fGet pcmd.flags) pcmd.arg1)
    (hf : f (operand0 h c pcmd) (operand1 h c pcmd) = .error e) :
    cmdBinary f h c pcmd = .error e := by
  have hf' : f (value h c.ram (arg0fGet pcmd.flags) pcmd.arg0)
      (value h c.ram (arg1fGet pcmd.flags) pcmd.arg1) = .error e := hf
  rw [cmdBinary, getword_reaches hr, Runs.ok_bind]
  simp only [getword_reaches (c := c.failIf _) hr', failIf_ram, Runs.ok_bind, hf', Runs.error_bind]

theorem divides_false {x y : Word} (hy : ¬ (y ≠ 0 ∧ ¬ (x = BitVec.intMin 32 ∧ y = -1))) :
    divides x y = false := by
  simpa [divides, ← not_and_or, not_and] using hy

theorem commands_undefined (he : trap op = some e)
    (hfst : Reaches c.ram (arg0fGet pcmd.flags) pcmd.arg0)
    (hsnd : Reaches c.ram (arg1fGet pcmd.flags) pcmd.arg1)
    (hdef : ¬ Defined (written op) (operand0 h c pcmd) (operand1 h c pcmd)) :
    commands op h c pcmd = .error e := by
  cases op with
  | div | mod =>
    cases he
    have hd : ¬ divides (operand0 h c pcmd) (operand1 h c pcmd) = true := by
      rw [divides_false hdef]
      exact Bool.false_ne_true
    rw [commands]
    exact binary_error hfst hsnd (if_neg hd)
  | shl | shr | rol | ror =>
    cases he
    rw [commands]
    exact binary_error hfst hsnd (if_neg hdef)
  | _ => cases he

/-- No operand is tested: a command whose operator has a result stores it, and one whose
operator has none performs it all the same. -/
theorem performed_anyway (he : trap op = some e)
    (hfst : Reaches c.ram (arg0fGet pcmd.flags) pcmd.arg0)
    (hsnd : Reaches c.ram (arg1fGet pcmd.flags) pcmd.arg1) :
    (Defined (written op) (operand0 h c pcmd) (operand1 h c pcmd) →
      ∃ f, table (written op) = some f ∧ commands op h c pcmd =
        .ok ((c.put (arg0fGet pcmd.flags) pcmd.arg0 (f (operand0 h c pcmd) (operand1 h c pcmd))).failIf
          (Unloaded h (arg1fGet pcmd.flags) pcmd.arg1), pcmd)) ∧
    (¬ Defined (written op) (operand0 h c pcmd) (operand1 h c pcmd) →
      commands op h c pcmd = .error e) := by
  constructor
  · intro hdef
    have hsame : commands op = commands (written op) := by cases op <;> rfl
    have hlook : looksAt (written op) (operand0 h c pcmd) = true := by cases op <;> first | rfl | cases he
    obtain ⟨f, hf⟩ : ∃ f, table (written op) = some f := by
      cases op <;> first | exact ⟨_, rfl⟩ | cases he
    have hrun := commands_data hf hfst (fun _ => hsnd) hdef
    rw [hlook] at hrun
    exact ⟨f, hf, by simpa only [hsame, true_and] using hrun⟩
  · exact commands_undefined he hfst hsnd

/-- `div $0, 0`. -/
theorem performed_anyway_zero :
    commands .div emptyHost selfChip ⟨1, 0x07, 0, 0⟩ = .error .division :=
  (@performed_anyway emptyHost selfChip ⟨1, 0x07, 0, 0⟩ .div .division rfl (by decide) trivial).2
    fun hdef => hdef.1 rfl

theorem div_traps : Reaches selfChip.ram (arg0fGet 1) 0 ∧ Reaches selfChip.ram (arg1fGet 1) 0 ∧
    ¬ TrapFree emptyHost selfChip .div ⟨1, 0x07, 0, 0⟩ := by
  refine ⟨by decide, trivial, fun hg => ?_⟩
  obtain hdef | ⟨d, q, hrun, _⟩ := hg
  · exact hdef.1 rfl
  · have herr : commands .div emptyHost selfChip ⟨1, 0x07, 0, 0⟩ = .error .division := by decide
    rw [herr] at hrun
    cases hrun

end Traps

end Vm
