import Chip32.VmStep

/-!
# What a handler leaves alone

No handler looks at the page or at the fields that describe it, and none writes
them. Through the pointer it is given a handler could still write its command,
and so the page the command lies in: `logs` and `strcpy` do, and no other handler
ever does. They move their operands on by the words they go over.
-/
namespace Vm

open Runs (bind_of_map bind_of_same)

/-- The loaded page and what describes it. -/
structure Page where
  data : List Command
  current : Word
  size : Word
  deriving DecidableEq, Repr

def Chip.page (c : Chip) : Page := ⟨c.data, c.pagecurrent, c.pagesize⟩

/-- The same machine with another page. -/
def Chip.withPage (c : Chip) (pg : Page) : Chip :=
  { c with data := pg.data, pagecurrent := pg.current, pagesize := pg.size }

@[simp] theorem withPage_page (c : Chip) : c.withPage c.page = c := rfl
@[simp] theorem page_withPage (c : Chip) (pg : Page) : (c.withPage pg).page = pg := rfl
@[simp] theorem withPage_ram (c : Chip) (pg : Page) : (c.withPage pg).ram = c.ram := rfl
@[simp] theorem withPage_state (c : Chip) (pg : Page) : (c.withPage pg).state = c.state := rfl

section Accesses

variable (h : Host) (c : Chip) (pg : Page) (type : Mode) (r v : Word)

@[simp] theorem load_withPage : load (c.withPage pg) r = load c r := rfl

@[simp] theorem store_withPage :
    store (c.withPage pg) r v = (store c r v).map (·.withPage pg) := by
  by_cases hr : InRam c.ram r
  · rw [store_ok hr, store_ok (by exact hr)]
    rfl
  · rw [store, store, if_neg hr, if_neg (by exact hr)]
    rfl

@[simp] theorem getword_withPage :
    getword h (c.withPage pg) type r =
      (getword h c type r).map fun x => (x.1, x.2.withPage pg) := by
  cases type with
  | literal => rfl
  | ram =>
    apply bind_of_same
    intro v
    rfl
  | ptr =>
    apply bind_of_same
    intro a
    apply bind_of_same
    intro v
    rfl
  | data =>
    simp only [getword, Runs.pure_ok, Runs.map_ok]
    split <;> rfl

@[simp] theorem setword_withPage :
    setword (c.withPage pg) type r v = (setword c type r v).map (·.withPage pg) := by
  cases type with
  | literal => rfl
  | ram => exact store_withPage ..
  | ptr =>
    apply bind_of_same
    intro a
    exact store_withPage ..
  | data => rfl

@[simp] theorem pushWord_withPage :
    pushWord (c.withPage pg) v = (pushWord c v).map (·.withPage pg) := by
  apply bind_of_same
  intro stk
  apply bind_of_map (store_withPage ..)
  intro d
  exact store_withPage ..

@[simp] theorem popWord_withPage :
    popWord (c.withPage pg) = (popWord c).map fun x => (x.1, x.2.withPage pg) := by
  apply bind_of_same
  intro stk
  apply bind_of_map (store_withPage ..)
  intro d
  apply bind_of_same
  intro v
  rfl

end Accesses

/-- On another page the handler does the same, and it returns its command as it was. -/
def Frame (handler : Handler) : Prop :=
  ∀ h c pg pcmd, handler h (c.withPage pg) pcmd =
    (handler h c pcmd).map fun x => (x.1.withPage pg, pcmd)

theorem Frame.kept {handler : Handler} (hf : Frame handler) {h : Host} {c d : Chip}
    {pcmd q : Command} (hr : handler h c pcmd = .ok (d, q)) : d.page = c.page ∧ q = pcmd := by
  have hsame := hf h c c.page pcmd
  rw [withPage_page, hr, Runs.map_ok] at hsame
  obtain ⟨hd, hq⟩ := Prod.mk.inj (Except.ok.inj hsame)
  exact ⟨by rw [hd, page_withPage], hq⟩

theorem frame_nop : Frame cmdNop := fun _ _ _ _ => rfl

theorem frame_unary (op : Word → Word) : Frame (cmdUnary op) := by
  intro h c pg pcmd
  apply bind_of_map (getword_withPage ..)
  rintro ⟨v, c⟩
  apply bind_of_map (setword_withPage ..)
  intro c
  rfl

theorem frame_binary (op : Word → Word → Except Fault Word) : Frame (cmdBinary op) := by
  intro h c pg pcmd
  apply bind_of_map (getword_withPage ..)
  rintro ⟨v, c⟩
  apply bind_of_map (getword_withPage ..)
  rintro ⟨w, c⟩
  apply bind_of_same
  intro r
  apply bind_of_map (setword_withPage ..)
  intro c
  rfl

theorem frame_move : Frame cmdMove := by
  intro h c pg pcmd
  apply bind_of_map (getword_withPage ..)
  rintro ⟨v, c⟩
  apply bind_of_map (setword_withPage ..)
  intro c
  rfl

theorem rightOperand_withPage (h : Host) (c : Chip) (pg : Page) (pcmd : Command) (o : Option Bool) :
    rightOperand h (c.withPage pg) pcmd o =
      (rightOperand h c pcmd o).map fun x => (x.1, x.2.withPage pg) := by
  cases o with
  | some b => rfl
  | none =>
    apply bind_of_map (getword_withPage ..)
    intro x
    rfl

theorem frame_logical (op : Word → Option Bool) : Frame (cmdLogical op) := by
  intro h c pg pcmd
  apply bind_of_map (getword_withPage ..)
  rintro ⟨v, c⟩
  apply bind_of_map (rightOperand_withPage ..)
  rintro ⟨w, c⟩
  apply bind_of_map (setword_withPage ..)
  intro c
  rfl

theorem frame_jmp : Frame cmdJmp := by
  intro h c pg pcmd
  apply bind_of_map (getword_withPage ..)
  rintro ⟨v, c⟩
  apply bind_of_map (store_withPage ..)
  intro c
  rfl

theorem jumpIf_withPage (h : Host) (c : Chip) (pg : Page) (pcmd : Command) (taken : Bool) :
    jumpIf h (c.withPage pg) pcmd taken = (jumpIf h c pcmd taken).map (·.withPage pg) := by
  cases taken with
  | false => rfl
  | true =>
    apply bind_of_map (getword_withPage ..)
    rintro ⟨v, c⟩
    exact store_withPage ..

theorem frame_jumpIf (test : Word → Bool) : Frame (cmdJumpIf test) := by
  intro h c pg pcmd
  apply bind_of_map (getword_withPage ..)
  rintro ⟨v, c⟩
  apply bind_of_map (jumpIf_withPage ..)
  intro c
  rfl

theorem frame_call : Frame cmdCall := by
  intro h c pg pcmd
  apply bind_of_map (getword_withPage ..)
  rintro ⟨v, c⟩
  apply bind_of_same
  intro pc
  apply bind_of_map (pushWord_withPage ..)
  intro c
  -- FRM goes on the stack behind the return address
  apply bind_of_same
  intro frm
  apply bind_of_map (pushWord_withPage ..)
  intro c
  apply bind_of_same
  intro stk
  apply bind_of_map (store_withPage ..)
  intro c
  apply bind_of_map (store_withPage ..)
  intro c
  rfl

theorem frame_ret : Frame cmdRet := by
  intro h c pg pcmd
  apply bind_of_same
  intro frm
  apply bind_of_map (store_withPage ..)
  intro c
  apply bind_of_map (popWord_withPage ..)
  rintro ⟨frm, c⟩
  apply bind_of_map (store_withPage ..)
  intro c
  apply bind_of_map (popWord_withPage ..)
  rintro ⟨pc, c⟩
  apply bind_of_map (store_withPage ..)
  intro c
  rfl

theorem frame_push : Frame cmdPush := by
  intro h c pg pcmd
  unfold cmdPush
  split
  · apply bind_of_same
    intro stk
    apply bind_of_map (store_withPage ..)
    intro c
    apply bind_of_map (getword_withPage ..)
    rintro ⟨v, c⟩
    apply bind_of_map (store_withPage ..)
    intro c
    rfl
  · apply bind_of_map (getword_withPage ..)
    rintro ⟨v, c⟩
    apply bind_of_map (pushWord_withPage ..)
    intro c
    rfl

theorem frame_pop : Frame cmdPop := by
  intro h c pg pcmd
  apply bind_of_map (popWord_withPage ..)
  rintro ⟨v, c⟩
  apply bind_of_map (setword_withPage ..)
  intro c
  rfl

theorem initRegisters_withPage (c : Chip) (pg : Page) :
    initRegisters (c.withPage pg) = (initRegisters c).map (·.withPage pg) := by
  apply bind_of_map (store_withPage ..)
  intro c
  apply bind_of_map (store_withPage ..)
  intro c
  exact store_withPage ..

theorem frame_initr : Frame cmdInitr := by
  intro h c pg pcmd
  unfold cmdInitr
  by_cases hram : c.ram = []
  · simp only [withPage_ram, hram, ne_eq, not_true_eq_false, if_false]
    by_cases hz : pcmd.arg0 = 0
    · simp only [hz, if_true]
      rfl
    · simp only [hz, if_false]
      cases h.malloc pcmd.arg0 with
      | none => rfl
      | some words =>
        have hset := initRegisters_withPage { c with
          ramsize := pcmd.arg0, ram := (List.range pcmd.arg0.toNat).map words } pg
        apply bind_of_map hset
        intro c
        rfl
  · simp only [withPage_ram, hram, ne_eq, not_false_eq_true, if_true]
    rfl

theorem frame_log (text : Word → String) : Frame (cmdLog text) := by
  intro h c pg pcmd
  apply bind_of_map (getword_withPage ..)
  rintro ⟨v, c⟩
  rfl

theorem frame_logln : Frame cmdLogln := fun _ _ _ _ => rfl

/-- The opcodes whose handlers write to their command. -/
def Rewrites (op : Opcode) : Prop := op = .logs ∨ op = .strcpy

instance (op : Opcode) : Decidable (Rewrites op) := inferInstanceAs (Decidable (_ ∨ _))

/-- The words that `logs` goes over, up to the first zero. -/
def logsWords (h : Host) (ram : List Word) (type : Mode) : Nat → Word → Nat
  | 0, _ => 0
  | k + 1, r => if value h ram type r = 0 then 1 else logsWords h ram type k (r + 1) + 1

/-- The words that `strcpy` goes over. -/
def strcpyWords (h : Host) (type : Mode) : Nat → List Word → Word → Word → Nat
  | 0, _, _, _ => 0
  | k + 1, ram, d, s =>
    if value h ram type s = 0 then 1
    else strcpyWords h type k (copyStep h ram type d s) (d + 1) (s + 1) + 1

/-- By how many words a command moves its operands on. -/
def words (h : Host) (c : Chip) (pcmd : Command) : Nat :=
  match Opcode.ofCode pcmd.cmd with
  | .logs => logsWords h c.ram (arg0fGet pcmd.flags) (2 ^ 32) pcmd.arg0
  | .strcpy => strcpyWords h (arg0fGet pcmd.flags) (2 ^ 32) c.ram pcmd.arg0 pcmd.arg1
  | _ => 0

/-- The same command, its operands moved on. -/
def shifted (pcmd : Command) (n : Nat) : Command :=
  { pcmd with
    arg0 := pcmd.arg0 + .ofNat 32 n
    arg1 := if Opcode.ofCode pcmd.cmd = .strcpy then pcmd.arg1 + .ofNat 32 n else pcmd.arg1 }

section Shifts

variable {h : Host} {c d : Chip} {ram : List Word} {type : Mode} {r s : Word} {k m n : Nat}
  {pcmd q : Command}

theorem add_ofNat_succ (r : Word) (i : Nat) : r + .ofNat 32 (i + 1) = r + 1 + .ofNat 32 i := by
  rw [BitVec.ofNat_add, BitVec.add_comm (BitVec.ofNat 32 i), ← BitVec.add_assoc]
  rfl

@[simp] theorem shifted_zero : shifted pcmd 0 = pcmd := by
  simp [shifted]

@[simp] theorem shifted_shifted : shifted (shifted pcmd m) n = shifted pcmd (m + n) := by
  unfold shifted
  split <;> simp [BitVec.add_assoc, BitVec.ofNat_add]

theorem add_ofNat_eq_self : r + .ofNat 32 n = r ↔ 2 ^ 32 ∣ n := by
  have hr := r.isLt
  rw [← BitVec.toNat_inj, BitVec.toNat_add, BitVec.toNat_ofNat]
  omega

/-- All operands come back together. -/
theorem shifted_eq_self : shifted pcmd n = pcmd ↔ 2 ^ 32 ∣ n := by
  rw [← add_ofNat_eq_self (r := pcmd.arg0)]
  constructor
  · intro he
    exact congrArg Command.arg0 he
  · intro he
    have hn := add_ofNat_eq_self.mp he
    rw [shifted, he, add_ofNat_eq_self.mpr hn, ite_self]

theorem logsWords_le : logsWords h ram type k r ≤ k := by
  induction k generalizing r with
  | zero => exact Nat.le_refl 0
  | succ k ih =>
    rw [logsWords]
    split
    · omega
    · exact Nat.succ_le_succ ih

theorem strcpyWords_le : strcpyWords h type k ram r s ≤ k := by
  induction k generalizing ram r s with
  | zero => exact Nat.le_refl 0
  | succ k ih =>
    rw [strcpyWords]
    split
    · omega
    · exact Nat.succ_le_succ ih

theorem shifted_logs (hop : Opcode.ofCode pcmd.cmd = .logs) :
    { pcmd with arg0 := pcmd.arg0 + 1 } = shifted pcmd 1 := by
  simp [shifted, hop]

theorem shifted_strcpy (hop : Opcode.ofCode pcmd.cmd = .strcpy) :
    { pcmd with arg0 := pcmd.arg0 + 1, arg1 := pcmd.arg1 + 1 } = shifted pcmd 1 := by
  simp [shifted, hop]

theorem logsLoop_frame (hop : Opcode.ofCode pcmd.cmd = .logs)
    (hr : logsLoop h k c pcmd = .ok (d, q)) : d.page = c.page ∧
      q = shifted pcmd (logsWords h c.ram (arg0fGet pcmd.flags) k pcmd.arg0) := by
  induction k generalizing c pcmd with
  | zero => cases hr
  | succ k ih =>
    obtain ⟨x, hget, hr⟩ := Runs.bind_eq_ok.mp hr
    cases getword_eq hget
    rw [logsWords]
    simp only [shifted_logs hop] at hr
    split at hr
    · next hv =>
      cases hr
      rw [if_pos hv]
      exact ⟨rfl, rfl⟩
    · next hv =>
      obtain ⟨hpage, rfl⟩ := @ih _ (shifted pcmd 1) hop hr
      rw [shifted_shifted, if_neg hv, Nat.add_comm _ 1]
      exact ⟨hpage, rfl⟩

theorem put_page {v : Word} : (c.put type r v).page = c.page := by
  unfold Chip.put
  cases destination c.ram type r <;> rfl

theorem strcpyLoop_frame (hop : Opcode.ofCode pcmd.cmd = .strcpy)
    (hr : strcpyLoop h k c pcmd = .ok (d, q)) : d.page = c.page ∧
      q = shifted pcmd (strcpyWords h (arg0fGet pcmd.flags) k c.ram pcmd.arg0 pcmd.arg1) := by
  induction k generalizing c pcmd with
  | zero => cases hr
  | succ k ih =>
    obtain ⟨x, hget, hr⟩ := Runs.bind_eq_ok.mp hr
    cases getword_eq hget
    obtain ⟨c₁, hset, hr⟩ := Runs.bind_eq_ok.mp hr
    have hput := setword_eq hset
    have hcopy : c₁.ram = copyStep h c.ram (arg0fGet pcmd.flags) pcmd.arg0 pcmd.arg1 := by
      rw [hput]
      exact copyStep_put
    have hsame : c₁.page = c.page := by
      rw [hput]
      exact put_page
    rw [strcpyWords]
    simp only [shifted_strcpy hop] at hr
    split at hr
    · next hv =>
      cases hr
      rw [if_pos hv]
      exact ⟨hsame, rfl⟩
    · next hv =>
      obtain ⟨hpage, rfl⟩ := @ih _ (shifted pcmd 1) hop hr
      have hone : (shifted pcmd 1).arg1 = pcmd.arg1 + 1 := if_pos hop
      rw [shifted_shifted, if_neg hv, Nat.add_comm _ 1, hcopy, hone]
      exact ⟨hpage.trans hsame, rfl⟩

end Shifts

theorem frame_commands {op : Opcode} (ho : ¬ Rewrites op) : Frame (commands op) := by
  cases op with
  | nop => exact frame_nop
  | move => exact frame_move
  | inc | dec | not | bnot =>
    simp only [commands, cmdInc, cmdDec, cmdNot, cmdBnot]
    exact frame_unary _
  | sum | dif | mul | div | mod | or | xor | and | shl | shr | rol | ror =>
    simp only [commands, cmdSum, cmdDif, cmdMul, cmdDiv, cmdMod, cmdOr, cmdXor, cmdAnd, cmdShl,
      cmdShr, cmdRol, cmdRor]
    exact frame_binary _
  | bor | band =>
    simp only [commands, cmdBor, cmdBand]
    exact frame_logical _
  | jmp => exact frame_jmp
  | ift | iff =>
    simp only [commands, cmdIft, cmdIff]
    exact frame_jumpIf _
  | call => exact frame_call
  | ret => exact frame_ret
  | push => exact frame_push
  | pop => exact frame_pop
  | initr => exact frame_initr
  | logi | logu | logc =>
    simp only [commands, cmdLogi, cmdLogu, cmdLogc]
    exact frame_log _
  | logln => exact frame_logln
  | logs => exact absurd (.inl rfl) ho
  | strcpy => exact absurd (.inr rfl) ho

theorem words_eq_zero {h : Host} {c : Chip} {pcmd : Command}
    (hw : ¬ Rewrites (.ofCode pcmd.cmd)) : words h c pcmd = 0 := by
  unfold words
  split
  · next hop => exact absurd (.inl hop) hw
  · next hop => exact absurd (.inr hop) hw
  · rfl

/-- A `logs` or `strcpy` goes over a word at least, and once around at most. -/
theorem words_bounds {h : Host} {c : Chip} {pcmd : Command}
    (hw : Rewrites (.ofCode pcmd.cmd)) : 0 < words h c pcmd ∧ words h c pcmd ≤ 2 ^ 32 := by
  unfold words
  rcases hw with hop | hop
  · simp only [hop, -Nat.reducePow]
    refine ⟨?_, logsWords_le⟩
    rw [show 2 ^ 32 = 2 ^ 32 - 1 + 1 from rfl, logsWords]
    split <;> omega
  · simp only [hop, -Nat.reducePow]
    refine ⟨?_, strcpyWords_le⟩
    rw [show 2 ^ 32 = 2 ^ 32 - 1 + 1 from rfl, strcpyWords]
    split <;> omega

/-- How a handler leaves its command. -/
theorem commands_shifted {h : Host} {c d : Chip} {pcmd q : Command}
    (hr : commands (.ofCode pcmd.cmd) h c pcmd = .ok (d, q)) :
    d.page = c.page ∧ q = shifted pcmd (words h c pcmd) := by
  by_cases hw : Rewrites (.ofCode pcmd.cmd)
  · unfold words
    rcases hw with hop | hop
    · simp only [hop] at hr ⊢
      exact logsLoop_frame hop hr
    · simp only [hop] at hr ⊢
      exact strcpyLoop_frame hop hr
  · rw [words_eq_zero hw, shifted_zero]
    exact (frame_commands hw).kept hr

/-- A dispatch that does not rewrite its command is the same on every page. -/
theorem frame_execute {h : Host} {c : Chip} {pcmd : Command} (hw : ¬ Rewrites (.ofCode pcmd.cmd))
    (pg : Page) : execute h (c.withPage pg) pcmd =
      (execute h c pcmd).map fun x => (x.1.withPage pg, pcmd) := by
  apply bind_of_map (frame_commands hw h c pg pcmd)
  rintro ⟨c, q⟩
  apply bind_of_same
  intro pc
  apply bind_of_map (store_withPage ..)
  intro c
  rfl

end Vm
