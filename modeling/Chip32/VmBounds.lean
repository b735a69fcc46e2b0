import Chip32.VmEffects
import Chip32.VmStep

/-!
# Accesses outside RAM

No access to RAM is checked. A run stays inside RAM exactly when its `initr` has
room for the registers and the cells that each command is about to use, as they
stand before it, exist.
-/
namespace Vm

/-- Its fault is no access outside RAM. -/
def InBounds {α : Type} (x : Except Fault α) : Prop := x ≠ .error .ramBounds

section Accesses

variable {α : Type} {h : Host} {c : Chip} {type : Mode} {r v : Word}

@[simp] theorem inBounds_ok (a : α) : InBounds (.ok a) := fun h => nomatch h

@[simp] theorem inBounds_pure (a : α) : InBounds (pure a) := inBounds_ok a

theorem inBounds_error {e : Fault} : InBounds (.error e : Except Fault α) ↔ e ≠ .ramBounds := by
  rw [InBounds, ne_eq, Except.error.injEq]

theorem inBounds_bind {β : Type} {x : Except Fault α} {f : α → Except Fault β} :
    InBounds (x >>= f) ↔ InBounds x ∧ ∀ a, x = .ok a → InBounds (f a) := Runs.bind_ne_error

theorem load_out (hr : ¬ InRam c.ram r) : load c r = .error .ramBounds := if_neg hr

theorem store_out (hr : ¬ InRam c.ram r) : store c r v = .error .ramBounds := if_neg hr

theorem inBounds_load_bind {f : Word → Except Fault α} :
    InBounds (load c r >>= f) ↔ InRam c.ram r ∧ InBounds (f (cell c.ram r)) := by
  by_cases hr : InRam c.ram r
  · rw [load_ok hr, Runs.ok_bind]
    exact (and_iff_right hr).symm
  · rw [load_out hr]
    exact iff_of_false (fun hs => hs rfl) fun hs => hr hs.1

theorem inBounds_store_bind {f : Chip → Except Fault α} :
    InBounds (store c r v >>= f) ↔ InRam c.ram r ∧ InBounds (f { c with ram := c.ram.set r.toNat v }) := by
  by_cases hr : InRam c.ram r
  · rw [store_ok hr, Runs.ok_bind]
    exact (and_iff_right hr).symm
  · rw [store_out hr]
    exact iff_of_false (fun hs => hs rfl) fun hs => hr hs.1

theorem getword_unreached (hr : ¬ Reaches c.ram type r) :
    getword h c type r = .error .ramBounds := by
  cases type with
  | literal | data => exact absurd trivial hr
  | ram => rw [getword, load_out hr, Runs.error_bind]
  | ptr =>
    by_cases ha : InRam c.ram r
    · rw [getword, load_ok ha, Runs.ok_bind, load_out fun hv => hr ⟨ha, hv⟩, Runs.error_bind]
    · rw [getword, load_out ha, Runs.error_bind]

theorem setword_unreached (hr : ¬ Reaches c.ram type r) :
    setword c type r v = .error .ramBounds := by
  cases type with
  | literal | data => exact absurd trivial hr
  | ram => exact store_out hr
  | ptr =>
    by_cases ha : InRam c.ram r
    · rw [setword, load_ok ha, Runs.ok_bind, store_out fun hv => hr ⟨ha, hv⟩]
    · rw [setword, load_out ha, Runs.error_bind]

theorem inBounds_getword_bind {f : Word × Chip → Except Fault α} :
    InBounds (getword h c type r >>= f) ↔ Reaches c.ram type r ∧
      InBounds (f (value h c.ram type r, c.failIf (Unloaded h type r))) := by
  by_cases hr : Reaches c.ram type r
  · rw [getword_reaches hr, Runs.ok_bind]
    exact (and_iff_right hr).symm
  · rw [getword_unreached hr]
    exact iff_of_false (fun hs => hs rfl) fun hs => hr hs.1

theorem inBounds_setword_bind {f : Chip → Except Fault α} :
    InBounds (setword c type r v >>= f) ↔ Reaches c.ram type r ∧ InBounds (f (c.put type r v)) := by
  by_cases hr : Reaches c.ram type r
  · rw [setword_reaches hr, Runs.ok_bind]
    exact (and_iff_right hr).symm
  · rw [setword_unreached hr]
    exact iff_of_false (fun hs => hs rfl) fun hs => hr hs.1

end Accesses

/-- RAM after a push. -/
def pushed (ram : List Word) (v : Word) : List Word :=
  (ram.set regStk.toNat (cell ram regStk - 1)).set (cell ram regStk).toNat v

/-- RAM as a `pop` stores what it took. -/
def popped (ram : List Word) : List Word := ram.set regStk.toNat (cell ram regStk + 1)

/-- RAM as `push` reads its operand. -/
def pushing (h : Host) (ram : List Word) : List Word :=
  if h.stkFirst then ram.set regStk.toNat (cell ram regStk - 1) else ram

/-- Cell `j` of a string that is read from `r` on exists, where no zero is before it. -/
def ReadsAt (h : Host) (ram : List Word) (type : Mode) (r : Word) (j : Nat) : Prop :=
  (∀ i < j, value h ram type (r + .ofNat 32 i) ≠ 0) → Reaches ram type (r + .ofNat 32 j)

/-- RAM after the first steps of a copy. -/
def copied (h : Host) (type : Mode) : Nat → List Word → Word → Word → List Word
  | 0, ram, _, _ => ram
  | j + 1, ram, d, s => copied h type j (copyStep h ram type d s) (d + 1) (s + 1)

/-- Cell `j` of a string that is copied from `s` to `d` exists, and so does the cell it
is copied to, where no zero has been copied before it. -/
def CopiesAt (h : Host) (type : Mode) (ram : List Word) (d s : Word) (j : Nat) : Prop :=
  (∀ i < j, value h (copied h type i ram d s) type (s + .ofNat 32 i) ≠ 0) →
    Reaches (copied h type j ram d s) type (s + .ofNat 32 j) ∧
      Reaches (copied h type j ram d s) type (d + .ofNat 32 j)

/-- The cells that the operands and the stack registers name, before the command, exist. -/
def Inside (h : Host) (c : Chip) (pcmd : Command) : Prop :=
  match Opcode.ofCode pcmd.cmd with
  | .nop | .initr | .logln => True
  | .logi | .logu | .logc => Reaches c.ram (arg0fGet pcmd.flags) pcmd.arg0
  | .logs => ∀ j, ReadsAt h c.ram (arg0fGet pcmd.flags) pcmd.arg0 j
  | .strcpy => ∀ j, CopiesAt h (arg0fGet pcmd.flags) c.ram pcmd.arg0 pcmd.arg1 j
  | .push => Reaches (pushing h c.ram) (arg0fGet pcmd.flags) pcmd.arg0 ∧
      InRam c.ram (cell c.ram regStk)
  | .pop => InRam c.ram (cell c.ram regStk + 1) ∧
      Reaches (popped c.ram) (arg0fGet pcmd.flags) pcmd.arg0
  | .call => Reaches c.ram (arg0fGet pcmd.flags) pcmd.arg0 ∧ InRam c.ram (cell c.ram regStk) ∧
      InRam c.ram (cell (pushed c.ram (cell c.ram regPc)) regStk)
  | .ret => InRam c.ram (cell c.ram regFrm + 1) ∧ InRam c.ram (cell c.ram regFrm + 1 + 1)
  | op => Reaches c.ram (arg0fGet pcmd.flags) pcmd.arg0 ∧
      (looksAt op (operand0 h c pcmd) → Reaches c.ram (arg1fGet pcmd.flags) pcmd.arg1)

section Handlers

variable {h : Host} {c : Chip} {pcmd : Command}

theorem inBounds_unary (op : Word → Word) :
    InBounds (cmdUnary op h c pcmd) ↔ Reaches c.ram (arg0fGet pcmd.flags) pcmd.arg0 := by
  simp only [cmdUnary, inBounds_getword_bind, inBounds_setword_bind, failIf_ram, inBounds_pure, and_true, and_self]

/-- A division or a shift without a result is a fault too, but comes after the reads. -/
theorem inBounds_binary {op : Word → Word → Except Fault Word} (hop : ∀ x y, InBounds (op x y)) :
    InBounds (cmdBinary op h c pcmd) ↔ Reaches c.ram (arg0fGet pcmd.flags) pcmd.arg0 ∧
      Reaches c.ram (arg1fGet pcmd.flags) pcmd.arg1 := by
  simp only [cmdBinary, inBounds_getword_bind, failIf_ram, and_congr_right_iff]
  intro hfst
  rw [and_iff_left_iff_imp]
  intro hsnd
  have hres := hop (value h c.ram (arg0fGet pcmd.flags) pcmd.arg0)
    (value h c.ram (arg1fGet pcmd.flags) pcmd.arg1)
  cases hv : op (value h c.ram (arg0fGet pcmd.flags) pcmd.arg0)
    (value h c.ram (arg1fGet pcmd.flags) pcmd.arg1) with
  | error e =>
    rw [hv] at hres
    exact inBounds_error.mpr (inBounds_error.mp hres)
  | ok v =>
    rw [Runs.ok_bind, inBounds_setword_bind]
    exact ⟨hfst, inBounds_pure _⟩

theorem inBounds_move : InBounds (cmdMove h c pcmd) ↔ Reaches c.ram (arg0fGet pcmd.flags) pcmd.arg0 ∧
    Reaches c.ram (arg1fGet pcmd.flags) pcmd.arg1 := by
  simp only [cmdMove, inBounds_getword_bind, inBounds_setword_bind, failIf_ram, inBounds_pure, and_true]
  exact and_comm

theorem inBounds_logical (decide : Word → Option Bool) :
    InBounds (cmdLogical decide h c pcmd) ↔ Reaches c.ram (arg0fGet pcmd.flags) pcmd.arg0 ∧
      (decide (operand0 h c pcmd) = none → Reaches c.ram (arg1fGet pcmd.flags) pcmd.arg1) := by
  simp only [cmdLogical, inBounds_getword_bind, and_congr_right_iff]
  intro hfst
  change InBounds (rightOperand h _ pcmd (decide (operand0 h c pcmd)) >>= _) ↔ _
  cases decide (operand0 h c pcmd) with
  | some b =>
    rw [rightOperand, Runs.pure_ok, Runs.ok_bind, inBounds_setword_bind]
    exact iff_of_true ⟨hfst, inBounds_pure _⟩ fun hn => absurd hn (Option.some_ne_none b)
  | none =>
    simp only [rightOperand, bind_assoc, inBounds_getword_bind, pure_bind, inBounds_setword_bind, failIf_ram,
      inBounds_pure, hfst, and_true, true_imp_iff]

theorem inBounds_jmp (hpc : InRam c.ram regPc) :
    InBounds (cmdJmp h c pcmd) ↔ Reaches c.ram (arg0fGet pcmd.flags) pcmd.arg0 := by
  simp only [cmdJmp, inBounds_getword_bind, inBounds_store_bind, failIf_ram, hpc, inBounds_pure, and_true]

theorem inBounds_jumpIf {test : Word → Bool} (hpc : InRam c.ram regPc) :
    InBounds (cmdJumpIf test h c pcmd) ↔ Reaches c.ram (arg0fGet pcmd.flags) pcmd.arg0 ∧
      (test (operand0 h c pcmd) → Reaches c.ram (arg1fGet pcmd.flags) pcmd.arg1) := by
  simp only [cmdJumpIf, inBounds_getword_bind, and_congr_right_iff]
  intro _
  change InBounds (jumpIf h _ pcmd (test (operand0 h c pcmd)) >>= _) ↔ _
  cases test (operand0 h c pcmd) with
  | false => exact iff_of_true (inBounds_ok _) fun hn => absurd hn Bool.false_ne_true
  | true =>
    simp only [jumpIf, if_true, bind_assoc, inBounds_getword_bind, inBounds_store_bind, failIf_ram, hpc,
      inBounds_pure, and_true, true_imp_iff]

theorem inBounds_log (text : Word → String) :
    InBounds (cmdLog text h c pcmd) ↔ Reaches c.ram (arg0fGet pcmd.flags) pcmd.arg0 := by
  simp only [cmdLog, inBounds_getword_bind, inBounds_pure, and_true]

theorem inBounds_pushWord_bind {α : Type} {f : Chip → Except Fault α} {v : Word}
    (hstk : InRam c.ram regStk) : InBounds (pushWord c v >>= f) ↔
      InRam c.ram (cell c.ram regStk) ∧ InBounds (f { c with ram := pushed c.ram v }) := by
  simp only [pushWord, bind_assoc, inBounds_load_bind, inBounds_store_bind, hstk, true_and, inRam_set]
  rfl

theorem inBounds_popWord_bind {α : Type} {f : Word × Chip → Except Fault α}
    (hstk : InRam c.ram regStk) : InBounds (popWord c >>= f) ↔ InRam c.ram (cell c.ram regStk + 1) ∧
      InBounds (f (cell (popped c.ram) (cell c.ram regStk + 1), { c with ram := popped c.ram })) := by
  simp only [popWord, bind_assoc, inBounds_load_bind, inBounds_store_bind, hstk, true_and, inRam_set,
    pure_bind]
  rfl

@[simp] theorem inRam_pushed {ram : List Word} {r v : Word} :
    InRam (pushed ram v) r ↔ InRam ram r := by
  simp [pushed]

@[simp] theorem inRam_popped {ram : List Word} {r : Word} : InRam (popped ram) r ↔ InRam ram r := by
  simp [popped]

theorem inBounds_push (hstk : InRam c.ram regStk) :
    InBounds (cmdPush h c pcmd) ↔ Reaches (pushing h c.ram) (arg0fGet pcmd.flags) pcmd.arg0 ∧
      InRam c.ram (cell c.ram regStk) := by
  unfold cmdPush pushing
  split
  · simp only [inBounds_load_bind, inBounds_store_bind, inBounds_getword_bind, hstk, true_and,
      failIf_ram, inRam_set, inBounds_pure, and_true]
  · simp only [inBounds_getword_bind]
    rw [inBounds_pushWord_bind (c := c.failIf _) hstk]
    simp only [failIf_ram, inBounds_pure, and_true]

theorem inBounds_pop (hstk : InRam c.ram regStk) :
    InBounds (cmdPop h c pcmd) ↔ InRam c.ram (cell c.ram regStk + 1) ∧
      Reaches (popped c.ram) (arg0fGet pcmd.flags) pcmd.arg0 := by
  simp only [cmdPop, inBounds_popWord_bind hstk, inBounds_setword_bind, inBounds_pure, and_true]

theorem inBounds_call (hm : HasMemory c) :
    InBounds (cmdCall h c pcmd) ↔ Reaches c.ram (arg0fGet pcmd.flags) pcmd.arg0 ∧
      InRam c.ram (cell c.ram regStk) ∧
      InRam c.ram (cell (pushed c.ram (cell c.ram regPc)) regStk) := by
  have hpc : InRam c.ram regPc := hm.inRam (by decide)
  have hstk : InRam c.ram regStk := hm.inRam (by decide)
  have hfrm : InRam c.ram regFrm := hm.inRam (by decide)
  simp only [cmdCall, inBounds_getword_bind, inBounds_load_bind, failIf_ram, hpc, true_and]
  rw [inBounds_pushWord_bind (c := c.failIf _) hstk]
  simp only [failIf_ram, inBounds_load_bind, inRam_pushed, hfrm, true_and]
  rw [inBounds_pushWord_bind (by simpa using hstk)]
  simp only [inBounds_load_bind, inBounds_store_bind, inRam_pushed, inRam_set, hstk, hfrm, hpc, inBounds_pure,
    and_true]

theorem inBounds_ret (hm : HasMemory c) : InBounds (cmdRet h c pcmd) ↔
    InRam c.ram (cell c.ram regFrm + 1) ∧ InRam c.ram (cell c.ram regFrm + 1 + 1) := by
  have hpc : InRam c.ram regPc := hm.inRam (by decide)
  have hstk : InRam c.ram regStk := hm.inRam (by decide)
  have hfrm : InRam c.ram regFrm := hm.inRam (by decide)
  have hset : ∀ v w : Word, cell ((popped (c.ram.set regStk.toNat v)).set regFrm.toNat w) regStk =
      v + 1 := by
    intro v w
    rw [cell_set_ne (by decide), popped, cell_set_self (by simpa using hstk), cell_set_self hstk]
  simp only [cmdRet, inBounds_load_bind, inBounds_store_bind, hfrm, hstk, true_and]
  rw [inBounds_popWord_bind (by simpa using hstk)]
  simp only [inBounds_store_bind, inRam_popped, inRam_set, hfrm, true_and]
  rw [inBounds_popWord_bind (by simpa using hstk)]
  simp only [inBounds_store_bind, inRam_popped, inRam_set, hpc, inBounds_pure, and_true, hset,
    cell_set_self hstk]

end Handlers

section Strings

variable {h : Host} {c : Chip} {pcmd : Command} {ram : List Word} {type : Mode} {r d s : Word} {j : Nat}

theorem readsAt_zero : ReadsAt h ram type r 0 ↔ Reaches ram type r := by
  simp [ReadsAt]

theorem readsAt_done (hv : value h ram type r = 0) : ReadsAt h ram type r (j + 1) := by
  intro hne
  exact absurd hv (by simpa using hne 0 (Nat.zero_lt_succ j))

theorem readsAt_succ (hv : value h ram type r ≠ 0) :
    ReadsAt h ram type r (j + 1) ↔ ReadsAt h ram type (r + 1) j := by
  simp only [ReadsAt, Nat.forall_lt_succ_left, add_ofNat_succ, BitVec.add_zero, hv, ne_eq,
    not_false_eq_true, true_and]

/-- The loop of `logs` goes through the string. -/
theorem inBounds_logsLoop (k : Nat) : InBounds (logsLoop h k c pcmd) ↔
    ∀ j < k, ReadsAt h c.ram (arg0fGet pcmd.flags) pcmd.arg0 j := by
  induction k generalizing c pcmd with
  | zero => exact iff_of_true (inBounds_error.mpr (by decide)) fun j hj => absurd hj (Nat.not_lt_zero j)
  | succ k ih =>
    rw [logsLoop, inBounds_getword_bind, Nat.forall_lt_succ_left, readsAt_zero]
    refine and_congr_right fun _ => ?_
    by_cases hv : value h c.ram (arg0fGet pcmd.flags) pcmd.arg0 = 0
    · simp only [hv, if_true, inBounds_pure, true_iff]
      exact fun j _ => readsAt_done hv
    · simp only [hv, if_false, ih]
      exact forall_congr' fun j => imp_congr_right fun _ => (readsAt_succ hv).symm

theorem copiesAt_zero : CopiesAt h type ram d s 0 ↔ Reaches ram type s ∧ Reaches ram type d := by
  simp [CopiesAt, copied]

/-- The copy ends behind a zero. -/
theorem copiesAt_done (hv : value h ram type s = 0) : CopiesAt h type ram d s (j + 1) := by
  intro hne
  exact absurd hv (by simpa [copied] using hne 0 (Nat.zero_lt_succ j))

theorem copiesAt_succ (hv : value h ram type s ≠ 0) : CopiesAt h type ram d s (j + 1) ↔
    CopiesAt h type (copyStep h ram type d s) (d + 1) (s + 1) j := by
  simp only [CopiesAt, Nat.forall_lt_succ_left, add_ofNat_succ, BitVec.add_zero, copied, hv, ne_eq,
    not_false_eq_true, true_and]

/-- The loop of `strcpy` goes through the string and its copy. -/
theorem inBounds_strcpyLoop (k : Nat) : InBounds (strcpyLoop h k c pcmd) ↔
    ∀ j < k, CopiesAt h (arg0fGet pcmd.flags) c.ram pcmd.arg0 pcmd.arg1 j := by
  induction k generalizing c pcmd with
  | zero => exact iff_of_true (inBounds_error.mpr (by decide)) fun j hj => absurd hj (Nat.not_lt_zero j)
  | succ k ih =>
    rw [strcpyLoop, inBounds_getword_bind, Nat.forall_lt_succ_left, copiesAt_zero, and_assoc]
    refine and_congr_right fun _ => ?_
    simp only [inBounds_setword_bind, failIf_ram]
    refine and_congr_right fun _ => ?_
    by_cases hv : value h c.ram (arg0fGet pcmd.flags) pcmd.arg1 = 0
    · simp only [hv, if_true, inBounds_pure, true_iff]
      exact fun j _ => copiesAt_done hv
    · simp only [hv, if_false, ih]
      refine forall_congr' fun j => imp_congr_right fun _ => ?_
      rw [copiesAt_succ hv, put_failIf, failIf_ram, copyStep_put]

theorem exists_add_ofNat (r v : Word) : ∃ i < 2 ^ 32, r + .ofNat 32 i = v :=
  ⟨(v - r).toNat, (v - r).isLt, by rw [BitVec.ofNat_toNat, BitVec.setWidth_eq, BitVec.add_comm,
    BitVec.sub_add_cancel]⟩

/-- An operand that has gone around and was a cell all the time is in no RAM. -/
theorem reaches_around {rams : Nat → List Word}
    (hall : ∀ i < 2 ^ 32, Reaches (rams i) type (r + .ofNat 32 i)) (ram : List Word) (s : Word) :
    Reaches ram type s := by
  obtain ⟨i, hi, hneg⟩ := exists_add_ofNat r (-1)
  have hr := hall i hi
  rw [hneg] at hr
  have hout : ¬ InRam (rams i) (-1) := fun hin => absurd hin.1 (by decide)
  cases type with
  | literal | data => trivial
  | ram => exact absurd hr hout
  | ptr => exact absurd hr.1 hout

theorem inBounds_logs : InBounds (cmdLogs h c pcmd) ↔
    ∀ j, ReadsAt h c.ram (arg0fGet pcmd.flags) pcmd.arg0 j := by
  rw [cmdLogs, inBounds_logsLoop]
  refine ⟨fun hall j => ?_, fun hall j _ => hall j⟩
  by_cases hj : j < 2 ^ 32
  · exact hall j hj
  · intro hne
    exact reaches_around (fun i hi => hall i hi fun m hm => hne m (by omega)) _ _

theorem inBounds_strcpy : InBounds (cmdStrcpy h c pcmd) ↔
    ∀ j, CopiesAt h (arg0fGet pcmd.flags) c.ram pcmd.arg0 pcmd.arg1 j := by
  rw [cmdStrcpy, inBounds_strcpyLoop]
  refine ⟨fun hall j => ?_, fun hall j _ => hall j⟩
  by_cases hj : j < 2 ^ 32
  · exact hall j hj
  · intro hne
    have haround := reaches_around fun i hi => (hall i hi fun m hm => hne m (by omega)).1
    exact ⟨haround _ _, haround _ _⟩

end Strings

section Runs

variable {h : Host} {c : Chip} {pcmd : Command} {s : Loop} {buf : List Command}

/-- A command stays inside RAM exactly when the cells it is about to use exist. -/
theorem inBounds_commands (hm : HasMemory c) :
    InBounds (commands (.ofCode pcmd.cmd) h c pcmd) ↔ Inside h c pcmd := by
  have hpc : InRam c.ram regPc := hm.inRam (by decide)
  have hstk : InRam c.ram regStk := hm.inRam (by decide)
  unfold Inside
  cases hop : Opcode.ofCode pcmd.cmd with
  | nop | logln => exact iff_of_true (inBounds_pure _) trivial
  | initr =>
    rw [commands, cmdInitr, if_pos hm.ne_nil]
    exact iff_of_true (inBounds_pure _) trivial
  | inc | dec | not | bnot =>
    simp only [commands, cmdInc, cmdDec, cmdNot, cmdBnot, inBounds_unary, looksAt, Bool.false_eq_true,
      false_imp_iff, and_true]
  | move => simp only [commands, inBounds_move, looksAt, true_imp_iff]
  | sum | dif | mul | or | xor | and =>
    simp only [commands, cmdSum, cmdDif, cmdMul, cmdOr, cmdXor, cmdAnd, looksAt, true_imp_iff]
    exact inBounds_binary fun _ _ => inBounds_ok _
  | div | mod | shl | shr | rol | ror =>
    simp only [commands, cmdDiv, cmdMod, cmdShl, cmdShr, cmdRol, cmdRor, looksAt, true_imp_iff]
    refine inBounds_binary fun x y => ?_
    first | unfold rotated | skip
    split
    · exact inBounds_ok _
    · exact inBounds_error.mpr (by decide)
  | bor | band =>
    simp only [commands, cmdBor, cmdBand, inBounds_logical, looksAt]
    simp
  | jmp =>
    simp only [commands, inBounds_jmp hpc, looksAt, Bool.false_eq_true, false_imp_iff, and_true]
  | ift | iff => simp only [commands, cmdIft, cmdIff, inBounds_jumpIf hpc, looksAt]
  | call => exact inBounds_call hm
  | ret => exact inBounds_ret (h := h) hm
  | push => exact inBounds_push hstk
  | pop => exact inBounds_pop (h := h) hstk
  | logi | logu | logc => simp only [commands, cmdLogi, cmdLogu, cmdLogc, inBounds_log]
  | logs => exact inBounds_logs
  | strcpy => exact inBounds_strcpy

/-- The increment of the PC is inside RAM anyway. -/
theorem inBounds_execute (hm : HasMemory c) : InBounds (execute h c pcmd) ↔ Inside h c pcmd := by
  rw [execute, inBounds_bind]
  refine Iff.trans (and_iff_left fun x hx => ?_) (inBounds_commands hm)
  have hkept := commands_tracks tracks_memory (tracks_memory.refl c) h hm.ne_nil
    (fun _ => .inr fun _ => ⟨rfl, rfl⟩) x hx
  have hpc : InRam x.1.ram regPc := by
    rw [InRam, hkept.1]
    exact hm.inRam (by decide)
  exact inBounds_load_bind.mpr ⟨hpc, inBounds_store_bind.mpr ⟨hpc, inBounds_pure _⟩⟩

/-- The command that an iteration dispatches uses only cells that exist. -/
def TurnsInside (h : Host) (s : Loop) : Prop :=
  ∀ t pcmd, turnPage h s = .ok (.next t) → current t.chip = some pcmd → Inside h t.chip pcmd

theorem inBounds_turnPage (hm : HasMemory s.chip) : InBounds (turnPage h s) :=
  Runs.ite_ne_error (inBounds_pure _) (inBounds_load_bind.mpr ⟨hm.inRam (by decide),
    Runs.ite_ne_error (inBounds_error.mpr (by decide))
      (Runs.ite_ne_error (inBounds_pure _) (Runs.ite_ne_error (inBounds_pure _) (inBounds_pure _)))⟩)

theorem inBounds_dispatch (hm : HasMemory s.chip) : InBounds (dispatch h s) ↔
    ∀ pcmd, current s.chip = some pcmd → Inside h s.chip pcmd := by
  rw [dispatch, inBounds_load_bind, and_iff_right (hm.inRam (by decide))]
  split
  next hcur =>
    have hcur : current s.chip = none := hcur
    exact iff_of_true (inBounds_error.mpr (by decide)) fun pcmd h =>
      absurd (h.symm.trans hcur) (Option.some_ne_none pcmd)
  next pcmd hcur =>
    have hcur : current s.chip = some pcmd := hcur
    simp only [hcur, Option.some.injEq, forall_eq']
    rw [inBounds_bind]
    exact (and_iff_left fun _ _ => inBounds_pure _).trans (inBounds_execute hm)

theorem inBounds_turn (hm : HasMemory s.chip) : InBounds (turn h s) ↔ TurnsInside h s := by
  rw [turn, inBounds_bind, and_iff_right (inBounds_turnPage hm)]
  constructor
  · intro hall t pcmd ht hcur
    have hd := (inBounds_bind.mp (hall (.next t) ht)).1
    exact (inBounds_dispatch (hm.turnPage ht)).mp hd pcmd hcur
  · intro hin o ho
    cases o with
    | stop t => exact inBounds_pure _
    | next t =>
      refine inBounds_bind.mpr ⟨?_, fun _ _ => inBounds_pure _⟩
      exact (inBounds_dispatch (hm.turnPage ho)).mpr fun pcmd => hin t pcmd ho

/-- The first command is no `initr` with a size that has no room for the registers. -/
def StartsInside (h : Host) (c : Chip) : Prop :=
  ∀ pcmd, (h.dataLoad 0 c.data).2.head? = some pcmd → 0 ≤ (h.dataLoad 0 c.data).1 →
    pcmd.cmd = Opcode.initr.code → pcmd.arg0 ≠ 0 → (h.malloc pcmd.arg0).isSome →
    35 ≤ pcmd.arg0.toNat

theorem inBounds_initr (hram : c.ram = []) : InBounds (cmdInitr h c pcmd) ↔
    (pcmd.arg0 ≠ 0 → (h.malloc pcmd.arg0).isSome → 35 ≤ pcmd.arg0.toNat) := by
  unfold cmdInitr
  simp only [hram, ne_eq, not_true_eq_false, if_false]
  by_cases hz : pcmd.arg0 = 0
  · rw [if_pos hz]
    exact iff_of_true (inBounds_pure _) fun hn => absurd hz hn
  · simp only [hz, if_false, not_false_eq_true, true_imp_iff]
    cases h.malloc pcmd.arg0 with
    | none => exact iff_of_true (inBounds_pure _) fun hn => nomatch hn
    | some words =>
      simp only [initRegisters, bind_assoc, inBounds_store_bind, inRam_set, Option.isSome_some,
        true_imp_iff, inBounds_pure, and_true]
      constructor
      · rintro ⟨_, _, _, hlast⟩
        have hfrm : regFrm.toInt = 34 := by decide
        simp only [List.length_map, List.length_range] at hlast
        omega
      · intro hsize
        have hin : ∀ r : Word, r.toNat < 35 → InRam ((List.range pcmd.arg0.toNat).map words) r :=
          fun r hr => inRam_of_lt (by simpa using by omega) (by omega)
        exact ⟨hin _ (by decide), hin _ (by decide), hin _ (by decide)⟩

theorem inBounds_start (hram : c.ram = []) : InBounds (start h c) ↔ StartsInside h c := by
  unfold start StartsInside
  simp only
  by_cases hn : (h.dataLoad 0 c.data).1 < 0
  · rw [if_pos hn]
    exact iff_of_true (inBounds_pure _) fun _ _ hge => absurd hge (by omega)
  · rw [if_neg hn]
    cases hdata : (h.dataLoad 0 c.data).2 with
    | nil => exact iff_of_true (inBounds_error.mpr (by decide)) fun _ h => nomatch h
    | cons pcmd rest =>
      simp only [List.head?_cons, Option.some.injEq, forall_eq', Int.not_lt.mp hn, true_imp_iff]
      by_cases hcode : pcmd.cmd = Opcode.initr.code
      · simp only [hcode, ne_eq, not_true_eq_false, if_false, true_imp_iff]
        rw [inBounds_bind]
        refine Iff.trans (and_iff_left fun _ _ => ?_) (inBounds_initr (c := { c with
          data := pcmd :: rest, pagecurrent := 0 }) hram)
        exact Runs.ite_ne_error (inBounds_pure _) (inBounds_pure _)
      · rw [if_pos hcode]
        exact iff_of_true (inBounds_pure _) fun he => absurd he hcode

/-- The command that an iteration dispatches is on the page, and its operator has a result. -/
def TurnsDefined (h : Host) (s : Loop) : Prop :=
  ∀ t, turnPage h s = .ok (.next t) → ∃ pcmd, current t.chip = some pcmd ∧
    Defined (written (.ofCode pcmd.cmd)) (operand0 h t.chip pcmd) (operand1 h t.chip pcmd)

/-- Every access is to a cell that there is: nothing is at fault, unless a handler goes on
through cells for ever. -/
def Safe {α : Type} (x : Except Fault α) : Prop := ∀ e, x = .error e → e = .endless

theorem Safe.inBounds {α : Type} {x : Except Fault α} (hsafe : Safe x) : InBounds x := by
  intro hx
  cases hsafe _ hx

theorem ok_faultless {α : Type} (a : α) (e : Fault) : (.ok a : Except Fault α) ≠ .error e := nofun

section Faults

variable {e : Fault} (he : e ≠ .ramBounds ∧ e ≠ .endless)

include he

theorem load_faultless (c : Chip) (r : Word) : load c r ≠ .error e := by
  unfold load
  split
  · exact nofun
  · exact fun hf => he.1 (Except.error.inj hf).symm

theorem store_faultless (c : Chip) (r v : Word) : store c r v ≠ .error e := by
  unfold store
  split
  · exact nofun
  · exact fun hf => he.1 (Except.error.inj hf).symm

theorem getword_faultless (h : Host) (c : Chip) (type : Mode) (r : Word) :
    getword h c type r ≠ .error e := by
  cases type <;> simp [getword, Runs.bind_ne_error, load_faultless he]

theorem setword_faultless (c : Chip) (type : Mode) (r v : Word) : setword c type r v ≠ .error e := by
  cases type <;> simp [setword, Runs.bind_ne_error, load_faultless he, store_faultless he]

theorem pushWord_faultless (c : Chip) (v : Word) : pushWord c v ≠ .error e := by
  simp [pushWord, Runs.bind_ne_error, load_faultless he, store_faultless he]

theorem popWord_faultless (c : Chip) : popWord c ≠ .error e := by
  simp [popWord, Runs.bind_ne_error, load_faultless he, store_faultless he]

theorem unary_faultless (op : Word → Word) : cmdUnary op h c pcmd ≠ .error e := by
  simp [cmdUnary, Runs.bind_ne_error, getword_faultless he, setword_faultless he]

theorem binary_faultless {op : Word → Word → Except Fault Word}
    (hop : op (operand0 h c pcmd) (operand1 h c pcmd) ≠ .error e) :
    cmdBinary op h c pcmd ≠ .error e := by
  refine Runs.bind_ne_error.mpr ⟨getword_faultless he _ _ _ _, fun x hx => ?_⟩
  cases getword_eq hx
  refine Runs.bind_ne_error.mpr ⟨getword_faultless he _ _ _ _, fun y hy => ?_⟩
  cases getword_eq hy
  exact Runs.bind_ne_error.mpr ⟨hop, fun v _ => Runs.bind_ne_error.mpr
    ⟨setword_faultless he _ _ _ _, fun _ _ => nofun⟩⟩

theorem logical_faultless (decide : Word → Option Bool) : cmdLogical decide h c pcmd ≠ .error e := by
  refine Runs.bind_ne_error.mpr ⟨getword_faultless he _ _ _ _, fun x _ => Runs.bind_ne_error.mpr
    ⟨?_, fun y _ => Runs.bind_ne_error.mpr ⟨setword_faultless he _ _ _ _, fun _ _ => nofun⟩⟩⟩
  cases decide x.1 <;> simp [rightOperand, Runs.bind_ne_error, getword_faultless he]

theorem jumpIf_faultless (test : Word → Bool) : cmdJumpIf test h c pcmd ≠ .error e := by
  refine Runs.bind_ne_error.mpr ⟨getword_faultless he _ _ _ _, fun x _ => Runs.bind_ne_error.mpr
    ⟨?_, fun _ _ => nofun⟩⟩
  cases test x.1 <;> simp [jumpIf, Runs.bind_ne_error, getword_faultless he, store_faultless he]

theorem logsLoop_faultless (k : Nat) : logsLoop h k c pcmd ≠ .error e := by
  induction k generalizing c pcmd with
  | zero => exact fun hf => he.2 (Except.error.inj hf).symm
  | succ k ih =>
    refine Runs.bind_ne_error.mpr ⟨getword_faultless he _ _ _ _, fun x _ => ?_⟩
    simp only
    split
    · exact nofun
    · exact ih

theorem strcpyLoop_faultless (k : Nat) : strcpyLoop h k c pcmd ≠ .error e := by
  induction k generalizing c pcmd with
  | zero => exact fun hf => he.2 (Except.error.inj hf).symm
  | succ k ih =>
    refine Runs.bind_ne_error.mpr ⟨getword_faultless he _ _ _ _, fun x _ => ?_⟩
    refine Runs.bind_ne_error.mpr ⟨setword_faultless he _ _ _ _, fun d _ => ?_⟩
    simp only
    split
    · exact nofun
    · exact ih

theorem initr_faultless : cmdInitr h c pcmd ≠ .error e := by
  unfold cmdInitr
  split
  · exact nofun
  · simp only
    split
    · exact nofun
    · cases h.malloc pcmd.arg0 <;>
        simp [initRegisters, Runs.bind_ne_error, store_faultless he]

/-- Where its operator has a result, a command is at fault for its accesses only. -/
theorem commands_faultless {op : Opcode}
    (hdef : Defined (written op) (operand0 h c pcmd) (operand1 h c pcmd)) :
    commands op h c pcmd ≠ .error e := by
  cases op with
  | nop | logln => exact ok_faultless _ _
  | move | jmp | call | ret | pop | logi | logu | logc =>
    simp [commands, cmdMove, cmdJmp, cmdCall, cmdRet, cmdPop, cmdLogi, cmdLogu, cmdLogc, cmdLog,
      Runs.bind_ne_error, load_faultless he, store_faultless he, getword_faultless he,
      setword_faultless he, pushWord_faultless he, popWord_faultless he]
  | inc | dec | not | bnot =>
    simp only [commands, cmdInc, cmdDec, cmdNot, cmdBnot]
    exact unary_faultless he _
  | sum | dif | mul | or | xor | and =>
    simp only [commands, cmdSum, cmdDif, cmdMul, cmdOr, cmdXor, cmdAnd]
    exact binary_faultless he (ok_faultless _ _)
  | div | mod =>
    have hd := (sdiv_eq _ _ hdef).1
    simp only [commands, cmdDiv, cmdMod]
    refine binary_faultless he ?_
    rw [if_pos hd]
    exact ok_faultless _ _
  | shl | shr =>
    have hlt : (operand1 h c pcmd).toNat < 32 := hdef
    simp only [commands, cmdShl, cmdShr]
    refine binary_faultless he ?_
    rw [if_pos hlt]
    exact ok_faultless _ _
  | rol | ror =>
    simp only [commands, cmdRol, cmdRor]
    refine binary_faultless he ?_
    rw [rotated_eq _ _ hdef]
    exact ok_faultless _ _
  | bor | band =>
    simp only [commands, cmdBor, cmdBand]
    exact logical_faultless he _
  | ift | iff =>
    simp only [commands, cmdIft, cmdIff]
    exact jumpIf_faultless he _
  | push =>
    rw [commands, cmdPush]
    split <;> simp [Runs.bind_ne_error, load_faultless he, store_faultless he, getword_faultless he,
      pushWord_faultless he]
  | initr => exact initr_faultless he
  | logs => exact logsLoop_faultless he _
  | strcpy => exact strcpyLoop_faultless he _

theorem turn_faultless (hz : s.chip.pagesize ≠ 0) (hd : TurnsDefined h s) : turn h s ≠ .error e := by
  refine Runs.bind_ne_error.mpr ⟨?_, fun o ho => ?_⟩
  · refine Runs.ite_ne_error nofun (Runs.bind_ne_error.mpr ⟨load_faultless he _ _, fun pc _ => ?_⟩)
    rw [if_neg hz]
    exact Runs.ite_ne_error nofun (Runs.ite_ne_error nofun nofun)
  · cases o with
    | stop t => exact nofun
    | next t =>
      obtain ⟨pcmd, hcur, hdef⟩ := hd t ho
      refine Runs.bind_ne_error.mpr ⟨?_, fun _ _ => nofun⟩
      refine Runs.bind_ne_error.mpr ⟨load_faultless he _ _, fun pc hpc => ?_⟩
      obtain ⟨_, rfl⟩ := load_eq_ok.mp hpc
      have hget : t.chip.data[((cell t.chip.ram regPc).signExtend 64).toNat]? = some pcmd := hcur
      simp only [hget]
      refine Runs.bind_ne_error.mpr ⟨?_, fun _ _ => nofun⟩
      refine Runs.bind_ne_error.mpr ⟨commands_faultless he hdef, fun x _ => ?_⟩
      exact Runs.bind_ne_error.mpr ⟨load_faultless he _ _, fun _ _ => Runs.bind_ne_error.mpr
        ⟨store_faultless he _ _ _, fun _ _ => nofun⟩⟩

theorem start_faultless (hc : c.data ≠ []) : start h c ≠ .error e := by
  unfold start
  simp only
  split
  · exact nofun
  · split
    · next hdata =>
      have hlen := h.length_dataLoad 0 c.data
      rw [hdata, List.length_nil] at hlen
      exact absurd (List.length_eq_zero_iff.mp hlen.symm) hc
    · split
      · exact nofun
      · exact Runs.bind_ne_error.mpr ⟨initr_faultless he, fun _ _ => Runs.ite_ne_error nofun nofun⟩

end Faults

theorem run_pagesize {k : Nat} (hr : run h c k = .ok (.next s)) : s.chip.pagesize = c.pagesize := by
  refine reached_invariant (I := fun s => s.chip.pagesize = c.pagesize) (P := fun _ => True)
    (fun s hs => ?_) (fun s u hs _ hu => ?_) (fun _ _ _ _ => trivial) hr
  · obtain ⟨pcmd, rest, _, _, _, _, _, hi⟩ := start_next hs
    exact congrArg Page.size (frame_initr.kept hi).1
  · obtain ⟨t, ht, hd⟩ := turn_next hu
    obtain ⟨pcmd, d, q, _, he, rfl⟩ := dispatch_next hd
    exact (congrArg Page.size (execute_frame he).1).trans ((turnPage_next ht).2.1.trans hs)

/-- Where its iterations are defined, a run is at fault for its accesses only. -/
theorem run_faultless {e : Fault} (he : e ≠ .ramBounds ∧ e ≠ .endless) (hc : c.data ≠ [])
    (hz : c.pagesize ≠ 0) {k : Nat}
    (hd : ∀ i < k, ∀ s, run h c i = .ok (.next s) → TurnsDefined h s) : run h c k ≠ .error e := by
  refine Runs.bind_ne_error.mpr ⟨start_faultless he hc, fun o ho => ?_⟩
  cases o with
  | stop t => exact nofun
  | next s₀ =>
    refine (Runs.iterate_ne_error _).mpr fun i hi s hs => ?_
    have hr : run h c i = .ok (.next s) := by
      rw [run, ho]
      exact hs
    exact turn_faultless he (run_pagesize hr ▸ hz) (hd i hi s hr)

/-- The cells exist that the start and the first `k` iterations are about to use. -/
def RunsInside (h : Host) (c : Chip) (k : Nat) : Prop :=
  StartsInside h c ∧ ∀ i < k, ∀ s, run h c i = .ok (.next s) → TurnsInside h s

/-- In the first `k` iterations, as long as all accesses are inside RAM, C says what the
command that is dispatched does. -/
def RunsDefined (h : Host) (c : Chip) (k : Nat) : Prop :=
  ∀ i < k, ∀ s, run h c i = .ok (.next s) → TurnsInside h s → TurnsDefined h s

/-- A run does not end in an access outside RAM as long as the cells it is about to use exist. -/
theorem inBounds_run (k : Nat) :
    InBounds (run h (Chip.new buf) k) ↔ RunsInside h (Chip.new buf) k := by
  have hmem : ∀ i s, run h (Chip.new buf) i = .ok (.next s) → (InBounds (turn h s) ↔ TurnsInside h s) :=
    fun i s hs => inBounds_turn (run_memory hs)
  rw [run, inBounds_bind, inBounds_start rfl]
  refine and_congr_right fun _ => ?_
  simp only [run] at hmem ⊢
  cases hs : start h (Chip.new buf) with
  | error e => simp
  | ok o =>
    cases o with
    | stop s => simp
    | next s₀ =>
      simp only [hs, Runs.ok_bind, Except.ok.injEq, forall_eq'] at hmem ⊢
      rw [InBounds, Runs.iterate_ne_error]
      exact forall_congr' fun i => imp_congr_right fun _ => forall_congr' fun s =>
        imp_congr_right fun hr => hmem i s hr

/-- Where C says what happens, a run that makes no access outside RAM is not at fault. -/
theorem InBounds.safe {k : Nat} (hbuf : 1 ≤ buf.length ∧ buf.length < 2 ^ 32)
    (hdef : RunsDefined h (Chip.new buf) k) (hin : InBounds (run h (Chip.new buf) k)) :
    Safe (run h (Chip.new buf) k) := by
  intro e he
  by_contra hne
  have hz : (Chip.new buf).pagesize ≠ 0 := by
    intro hz
    have hlen := congrArg BitVec.toNat hz
    rw [Chip.new, BitVec.toNat_ofNat, Nat.mod_eq_of_lt hbuf.2] at hlen
    exact Nat.ne_of_gt hbuf.1 hlen
  have hdata : (Chip.new buf).data ≠ [] := List.ne_nil_of_length_pos hbuf.1
  have hinside := ((inBounds_run k).mp hin).2
  exact run_faultless ⟨fun hb => hin (hb ▸ he), hne⟩ hdata hz
    (fun i hi s hs => hdef i hi s hs (hinside i hi s hs)) he

/-- No access to RAM is checked: a run of an object file does not end in one outside RAM
exactly when the `initr` that has memory has the registers in it, and the operands and the
stack of every command that is dispatched name cells that exist. Where the commands are on
their page and the operators have results as well, it is exactly then that nothing is at
fault. Where RAM has memory, it has as many cells as the size says. -/
theorem ram_safe_iff (f : List ObjectFile.Byte) (malloc : Word → Option (Nat → Word))
    (un : Unspecified) (buf : List Command) (hbuf : 1 ≤ buf.length ∧ buf.length < 2 ^ 32) (k : Nat) :
    (InBounds (run (ObjectFile.host f malloc un) (Chip.new buf) k) ↔
      RunsInside (ObjectFile.host f malloc un) (Chip.new buf) k) ∧
    (RunsDefined (ObjectFile.host f malloc un) (Chip.new buf) k →
      (Safe (run (ObjectFile.host f malloc un) (Chip.new buf) k) ↔
        RunsInside (ObjectFile.host f malloc un) (Chip.new buf) k)) ∧
    ∀ s, run (ObjectFile.host f malloc un) (Chip.new buf) k = .ok (.next s) →
      s.chip.ram.length = s.chip.ramsize.toNat := by
  refine ⟨inBounds_run k, fun hdef => ?_, fun s hs => (run_memory hs).length⟩
  rw [← inBounds_run k]
  exact ⟨Safe.inBounds, InBounds.safe hbuf hdef⟩

/-- `initr 40` and `move $100, 5`. -/
def storeBehind : List Command := [⟨0, 0x30, 40, 0⟩, ⟨1, 0x01, 100, 5⟩]

def storeHost : Host :=
  ObjectFile.host (ObjectFile.commandsSave storeBehind) (fun _ => some fun _ => 0) ⟨⟨0, 0, 0, 0⟩, true⟩

/-- The machine as the store is dispatched. -/
def storeState : Loop where
  chip :=
    { Chip.new storeBehind with
      ram := List.replicate 32 0 ++ [1, 39, 39] ++ List.replicate 5 0
      ramsize := 40 }
  ncmds := 2

theorem store_reached :
    run storeHost (Chip.new (List.replicate 2 ⟨0, 0, 0, 0⟩)) 0 = .ok (.next storeState) ∧
      turnPage storeHost storeState = .ok (.next storeState) :=
  ⟨Runs.ok_of_toOption (by decide +kernel), Runs.ok_of_toOption (by decide +kernel)⟩

theorem store_defined : TurnsDefined storeHost storeState := by
  intro t ht
  cases store_reached.2.symm.trans ht
  exact ⟨⟨1, 0x01, 100, 5⟩, by decide, trivial⟩

theorem store_runsDefined :
    RunsDefined storeHost (Chip.new (List.replicate 2 ⟨0, 0, 0, 0⟩)) 1 := by
  intro i hi s hs _
  obtain rfl : i = 0 := Nat.lt_one_iff.mp hi
  cases store_reached.1.symm.trans hs
  exact store_defined

theorem ram_safe_iff_store :
    Safe (run storeHost (Chip.new (List.replicate 2 ⟨0, 0, 0, 0⟩)) 1) ↔
      RunsInside storeHost (Chip.new (List.replicate 2 ⟨0, 0, 0, 0⟩)) 1 :=
  (ram_safe_iff (ObjectFile.commandsSave storeBehind) (fun _ => some fun _ => 0)
    ⟨⟨0, 0, 0, 0⟩, true⟩ (List.replicate 2 ⟨0, 0, 0, 0⟩) (by decide) 1).2.1 store_runsDefined

/-- The store is made, and is no FAIL. -/
theorem storeBehind_unsafe :
    run storeHost (Chip.new (List.replicate 2 ⟨0, 0, 0, 0⟩)) 1 = .error .ramBounds := by
  decide +kernel

end Runs

end Vm
