import Chip32.VmAccess
import Chip32.VmRules

/-!
# Programs that only go forward

A program whose jumps go to a number behind them and whose other commands leave the PC alone
ends: every dispatch takes the PC further, so there are no more of them than commands.
-/
namespace Vm

open ObjectFile (commandsSave)

/-- The command a word names. -/
def indexOf (v : Word) : Nat := (v.signExtend 64).toNat

/-- No operand stores to the PC. -/
def SparesPc (pcmd : Command) : Prop :=
  arg0fGet pcmd.flags ≠ .ptr ∧ (arg0fGet pcmd.flags = .ram → pcmd.arg0 ≠ regPc)

/-- At `i` in a program of `n` commands: a jump goes on behind `i` and not behind the end;
no other command touches the PC. -/
def Forward (n i : Nat) (pcmd : Command) : Prop :=
  match Opcode.ofCode pcmd.cmd with
  | .nop | .initr | .logi | .logu | .logc | .logs | .logln => True
  | .jmp => arg0fGet pcmd.flags = .literal ∧ i < indexOf pcmd.arg0 ∧ indexOf pcmd.arg0 ≤ n
  | .ift | .iff => arg1fGet pcmd.flags = .literal ∧ i < indexOf pcmd.arg1 ∧ indexOf pcmd.arg1 ≤ n
  | .call | .ret | .push | .strcpy => False
  | _ => SparesPc pcmd

section Steps

variable {h : Host} {c d : Chip} {pcmd q : Command} {x : Chip × Command} {ram : List Word}

theorem SparesPc.writes (hs : SparesPc pcmd) :
    regPc ∉ operandWrites ram (arg0fGet pcmd.flags) pcmd.arg0 := by
  obtain ⟨hptr, hne⟩ := hs
  unfold operandWrites destination
  cases hm : arg0fGet pcmd.flags with
  | ram => simpa using (hne hm).symm
  | ptr => exact absurd hm hptr
  | literal | data => exact List.not_mem_nil

theorem execute_tick (he : execute h c pcmd = .ok (d, q)) :
    ∃ e, commands (.ofCode pcmd.cmd) h c pcmd = .ok (e, q) ∧
      (∃ ram, d = { e with ram := ram }) ∧ cell d.ram regPc = cell e.ram regPc + 1 := by
  obtain ⟨⟨e, q'⟩, hcmd, he⟩ := Runs.bind_eq_ok.mp he
  obtain ⟨pc, hpc, he⟩ := Runs.bind_eq_ok.mp he
  obtain ⟨e', hstore, he⟩ := Runs.bind_eq_ok.mp he
  cases he
  obtain ⟨hin, rfl⟩ := load_eq_ok.mp hpc
  obtain ⟨_, rfl⟩ := store_eq_ok.mp hstore
  exact ⟨e, hcmd, ⟨_, rfl⟩, cell_set_self hin⟩

theorem kept_pc {ws : List Word} {y z : Except Fault (Chip × Command)}
    (hp : Runs.Pairs (Done c (fun _ => True) ws) y z) (he : y = .ok x) (hno : regPc ∉ ws) :
    cell x.1.ram regPc = cell c.ram regPc := by
  obtain ⟨_, _, hdone⟩ := hp.ok he
  exact hdone.2.kept regPc hno

/-- A jump to a written number. -/
theorem jmp_pc (hin : InRam c.ram regPc) (hlit : arg0fGet pcmd.flags = .literal)
    (he : cmdJmp h c pcmd = .ok x) : cell x.1.ram regPc = pcmd.arg0 - 1 := by
  have hr : Reaches c.ram (arg0fGet pcmd.flags) pcmd.arg0 := by
    rw [hlit]
    trivial
  cases (jmp_reaches hin hr).symm.trans he
  have hop : operand0 h c pcmd = pcmd.arg0 := by
    rw [operand0, hlit]
    rfl
  rw [← hop]
  exact cell_set_self hin

/-- A conditional one. -/
theorem jumpIf_pc {test : Word → Bool} (hin : InRam c.ram regPc)
    (hlit : arg1fGet pcmd.flags = .literal) (he : cmdJumpIf test h c pcmd = .ok x) :
    cell x.1.ram regPc = cell c.ram regPc ∨ cell x.1.ram regPc = pcmd.arg1 - 1 := by
  obtain ⟨_, hget, _⟩ := Runs.bind_eq_ok.mp he
  have hr : Reaches c.ram (arg1fGet pcmd.flags) pcmd.arg1 := by
    rw [hlit]
    trivial
  have hjump : cmdJumpIf test h c pcmd = _ :=
    jumpIf_reaches hin (reaches_of_getword hget) fun _ => hr
  cases hjump.symm.trans he
  have hop : operand1 h c pcmd = pcmd.arg1 := by
    rw [operand1, hlit]
    rfl
  rw [← hop]
  cases test (operand0 h c pcmd) with
  | false => exact .inl rfl
  | true => exact .inr (cell_set_self hin)

/-- Where a command leaves the PC before it is incremented. -/
theorem commands_pc (hin : InRam c.ram regPc) {n i : Nat} (hf : Forward n i pcmd)
    (he : commands (.ofCode pcmd.cmd) h c pcmd = .ok x) :
    cell x.1.ram regPc = cell c.ram regPc ∨
      ∃ v, i < indexOf v ∧ indexOf v ≤ n ∧ cell x.1.ram regPc = v - 1 := by
  have hram : c.ram ≠ [] := by
    rintro hnil
    rw [hnil] at hin
    exact absurd hin (by decide)
  have hself : Beside c (fun _ => True) [] c c := beside_start ⟨c.ram, rfl⟩ rfl fun _ _ => rfl
  have hknown : ∀ xs, Known (fun _ => True) [] xs := fun _ _ _ => .inl trivial
  unfold Forward at hf
  cases hop : Opcode.ofCode pcmd.cmd with
  | call | ret | push | strcpy => simp [hop] at hf
  | jmp =>
    simp only [hop] at hf he
    exact .inr ⟨pcmd.arg0, hf.2.1, hf.2.2, jmp_pc hin hf.1 he⟩
  | ift | iff =>
    simp only [hop, commands, cmdIft, cmdIff] at hf he
    exact (jumpIf_pc hin hf.1 he).imp_right fun hx => ⟨pcmd.arg1, hf.2.1, hf.2.2, hx⟩
  | nop | logln =>
    simp only [hop] at he
    cases he
    exact .inl rfl
  | initr =>
    simp only [hop] at he
    exact .inl (kept_pc (initr_beside hself hram) he List.not_mem_nil)
  | logi | logu | logc =>
    simp only [hop, commands, cmdLogi, cmdLogu, cmdLogc] at he
    exact .inl (kept_pc (log_beside hself _ (hknown _)) he List.not_mem_nil)
  | logs =>
    simp only [hop] at he
    exact .inl (kept_pc (logsLoop_beside (2 ^ 32) hself (hknown _)) he List.not_mem_nil)
  | pop =>
    simp only [hop] at hf he
    exact .inl (kept_pc (pop_beside (h := h) hself (.inl trivial) (.inl trivial) (hknown _)) he (by
      simp [hf.writes, reg_ne.1]))
  | move =>
    simp only [hop] at hf he
    exact .inl (kept_pc (move_beside hself (hknown _) (hknown _)) he (by simp [hf.writes]))
  | inc | dec | not | bnot =>
    simp only [hop, commands, cmdInc, cmdDec, cmdNot, cmdBnot] at hf he
    exact .inl (kept_pc (unary_beside hself _ (hknown _)) he (by simp [hf.writes]))
  | sum | dif | mul | div | mod | or | xor | and | shl | shr | rol | ror =>
    simp only [hop, commands, cmdSum, cmdDif, cmdMul, cmdDiv, cmdMod, cmdOr, cmdXor, cmdAnd, cmdShl,
      cmdShr, cmdRol, cmdRor] at hf he
    exact .inl (kept_pc (binary_beside hself _ (hknown _) (hknown _)) he (by simp [hf.writes]))
  | bor | band =>
    simp only [hop, commands, cmdBor, cmdBand] at hf he
    exact .inl (kept_pc (logical_beside hself _ (hknown _) fun _ => hknown _) he
      (by simp [hf.writes]))

/-- A dispatch goes on behind its command and not behind the end. -/
theorem forward_step {n : Nat} (hn : n < 2 ^ 31) (hin : InRam c.ram regPc) (hlt : pcIndex c < n)
    (hf : Forward n (pcIndex c) pcmd) (he : execute h c pcmd = .ok (d, q)) :
    pcIndex c < pcIndex d ∧ pcIndex d ≤ n := by
  obtain ⟨e, hcmd, _, htick⟩ := execute_tick he
  change _ < indexOf (cell d.ram regPc) ∧ indexOf (cell d.ram regPc) ≤ n
  rcases commands_pc hin hf hcmd with hsame | ⟨v, hv, hend, hjump⟩
  · have hnn : 0 ≤ (cell c.ram regPc).toInt := nonneg_of_index (r := cell c.ram regPc) (by
      rw [pcIndex] at hlt
      omega)
    have hidx : pcIndex c = (cell c.ram regPc).toNat := signExtend_toNat hnn
    have hsucc := toInt_succ (v := cell c.ram regPc) (n := pcIndex c)
      (by rw [hidx, toNat_of_nonneg hnn]) (by omega)
    have hnat := toNat_of_nonneg (r := cell c.ram regPc + 1) (by omega)
    rw [htick, hsame, indexOf, signExtend_toNat (by omega)]
    omega
  · rw [htick, hjump, BitVec.sub_add_cancel]
    exact ⟨hv, hend⟩

end Steps

section Runs

variable {h : Host} {prog : List Command} {c d : Chip} {k : Nat}

theorem flatTurn_inRam (ht : flatTurn h prog c = .ok (.next d)) : InRam c.ram regPc := by
  unfold flatTurn at ht
  split at ht
  · cases ht
  · obtain ⟨_, hpc, _⟩ := Runs.bind_eq_ok.mp ht
    exact (load_eq_ok.mp hpc).1

/-- Every command of the program goes forward. -/
def GoesForward (prog : List Command) : Prop :=
  ∀ i pcmd, prog[i]? = some pcmd → Forward prog.length i pcmd

/-- As many dispatches as were made, the PC is at least as far. -/
theorem forward_iterate (hn : prog.length < 2 ^ 31) (hf : GoesForward prog)
    (hr : Runs.iterate (flatTurn h prog) k c = .ok (.next d)) (hc : pcIndex c ≤ prog.length) :
    pcIndex c + k ≤ pcIndex d ∧ pcIndex d ≤ prog.length := by
  induction k generalizing d with
  | zero =>
    cases hr
    exact ⟨Nat.le_refl _, hc⟩
  | succ k ih =>
    obtain ⟨e, he, hd⟩ := (Runs.iterate_succ_next _).mp hr
    obtain ⟨hle, _⟩ := ih he
    obtain ⟨pcmd, q, hfetch, hexec⟩ := flatTurn_next hd
    obtain ⟨hlt, _⟩ := List.getElem?_eq_some_iff.mp (show prog[pcIndex e]? = some pcmd from hfetch)
    obtain ⟨hnext, hend⟩ := forward_step hn (flatTurn_inRam hd) hlt (hf _ _ hfetch) hexec
    exact ⟨by omega, hend⟩

theorem flatStart_pc (hs : flatStart h prog = .ok (.next c)) : prog ≠ [] ∧ pcIndex c = 1 := by
  cases prog with
  | nil => cases hs
  | cons first rest =>
    refine ⟨List.cons_ne_nil _ _, ?_⟩
    obtain ⟨⟨e, q⟩, hinit, hs⟩ := Runs.bind_eq_ok.mp hs
    simp only at hs
    split at hs
    · cases hs
    · next hrun =>
      cases hs
      rw [cmdInitr, if_neg (by simp [Chip.new])] at hinit
      simp only at hinit
      split at hinit
      · cases hinit
        exact absurd rfl hrun
      · split at hinit
        · cases hinit
          exact absurd rfl hrun
        · obtain ⟨_, hreg, hinit⟩ := Runs.bind_eq_ok.mp hinit
          cases hinit
          obtain ⟨_, hpc, hreg⟩ := Runs.bind_eq_ok.mp hreg
          obtain ⟨_, hstk, hfrm⟩ := Runs.bind_eq_ok.mp hreg
          obtain ⟨hin, rfl⟩ := store_eq_ok.mp hpc
          obtain ⟨_, rfl⟩ := store_eq_ok.mp hstk
          obtain ⟨_, rfl⟩ := store_eq_ok.mp hfrm
          rw [pcIndex, cell_set_ne reg_ne.2.1.symm, cell_set_ne reg_ne.1.symm, cell_set_self hin]
          rfl

/-- `chip32_run` on a program that goes forward is over before it has made as many rounds as
the program has commands, whatever the memory holds and whatever the commands compute. -/
theorem forward_run (prog buf : List Command) (malloc : Word → Option (Nat → Word)) (un : Unspecified)
    (hbuf : buf.length < 2 ^ 32) (hfit : prog.length < buf.length) (hn : prog.length < 2 ^ 31)
    (hprog : Runnable prog) (hf : GoesForward prog) (s : Loop) :
    run (ObjectFile.host (commandsSave prog) malloc un) (Chip.new buf) prog.length ≠
      .ok (.next s) := by
  have hflat : ∀ i d, flatRun (ObjectFile.host (commandsSave prog) malloc un) prog i =
      .ok (.next d) → prog ≠ [] ∧ 1 + i ≤ pcIndex d ∧ pcIndex d ≤ prog.length := by
    intro i d hd
    obtain ⟨o, hs, hd⟩ := Runs.bind_eq_ok.mp hd
    cases o with
    | stop e => cases hd
    | next e =>
      obtain ⟨hne, hpc⟩ := flatStart_pc hs
      have hpos := List.length_pos_iff.mpr hne
      rw [← hpc]
      exact ⟨hne, forward_iterate hn hf hd (by omega)⟩
  intro hrun
  rw [run_onPage ⟨by omega, hbuf⟩ malloc un hprog fun i _ d hd => ?_] at hrun
  · cases ho : flatRun (ObjectFile.host (commandsSave prog) malloc un) prog prog.length with
    | error e =>
      rw [ho] at hrun
      cases hrun
    | ok o =>
      cases o with
      | stop d =>
        rw [ho] at hrun
        cases hrun
      | next d =>
        obtain ⟨_, hfar, hend⟩ := hflat _ d ho
        omega
  · obtain ⟨_, _, hend⟩ := hflat i d hd
    have hnn : 0 ≤ (cell d.ram regPc).toInt := nonneg_of_index (r := cell d.ram regPc) (by
      rw [pcIndex] at hend
      omega)
    have hnat := toNat_of_nonneg hnn
    rw [pcIndex, signExtend_toNat hnn] at hend
    exact ⟨hnn, by omega⟩

/-- `initr 40`, `move $0, 7`, `ift $1, 4`, `inc $0` and `logi $0`. -/
def skipping : List Command :=
  [⟨0, 0x30, 40, 0⟩, ⟨1, 0x01, 0, 7⟩, ⟨1, 0x21, 1, 4⟩, ⟨1, 0x02, 0, 0⟩, ⟨1, 0x40, 0, 0⟩]

theorem skipping_forward : GoesForward skipping := by
  intro i pcmd hp
  obtain ⟨hlt, _⟩ := List.getElem?_eq_some_iff.mp hp
  obtain rfl | (rfl | rfl) | rfl | rfl : i = 0 ∨ (i = 1 ∨ i = 3) ∨ i = 2 ∨ i = 4 := by
    simp only [skipping, List.length_cons, List.length_nil] at hlt
    omega
  · cases hp
    trivial
  · cases hp
    exact ⟨by decide, fun _ => by decide⟩
  · cases hp
    exact ⟨by decide, fun _ => by decide⟩
  · cases hp
    exact ⟨rfl, by decide, by decide⟩
  · cases hp
    trivial

theorem forward_run_skipping : ¬ ∃ s,
    run (ObjectFile.host (commandsSave skipping) (fun _ => some fun _ => 9) ⟨⟨0, 0, 0, 0⟩, true⟩)
      (Chip.new (List.replicate 8 ⟨0, 0, 0, 0⟩)) 5 = .ok (.next s) := by
  rintro ⟨s, hs⟩
  exact forward_run skipping (List.replicate 8 ⟨0, 0, 0, 0⟩) (fun _ => some fun _ => 9)
    ⟨⟨0, 0, 0, 0⟩, true⟩ (by decide) (by decide) (by decide) ⟨rfl, by decide⟩ skipping_forward s hs

end Runs

end Vm
