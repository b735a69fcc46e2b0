import Chip32.VmFrame

/-!
# The stack in RAM

An abstract call stack has the words of the current frame and the open calls,
each with the registers it was made with and the words of the frame it was made
in. RAM stands for such a stack when the cells above STK are its words and
return data, frame after frame, and FRM marks where the current frame began.
-/
namespace Vm

/-- A call not yet returned from: the registers just before it and its caller's words. -/
structure OpenCall where
  pc : Word
  stk : Word
  frm : Word
  words : List Word
  deriving DecidableEq, Repr

/-- The current frame's words, the last one pushed first, and the open calls, the last first. -/
structure CallStack where
  words : List Word
  calls : List OpenCall
  deriving DecidableEq, Repr

/-- The cells above STK: each call stored FRM below PC, on top of its caller's words. -/
def region : List Word → List OpenCall → List Word
  | words, [] => words
  | words, o :: os => words ++ o.frm :: o.pc :: region o.words os

theorem region_eq (words : List Word) (calls : List OpenCall) :
    region words calls = words ++ region [] calls := by
  cases calls <;> simp [region]

/-- The registers an open call keeps say where its caller's region began and
where its caller's frame did, in a memory of `n` cells. -/
def Saved (n : Nat) : List OpenCall → Prop
  | [] => True
  | o :: os => o.stk.toNat + (region o.words os).length + 1 = n ∧
      o.frm.toNat + (region [] os).length + 1 = n ∧ Saved n os

/-- The memory holds the stack. Signed cell numbers reach only the first `2^31`
cells, so a stack that is not empty lies in a memory that is not larger. -/
structure Represents (ram : List Word) (a : CallStack) : Prop where
  size : 36 ≤ ram.length
  floor : 34 ≤ (cell ram regStk).toNat
  top : (cell ram regStk).toNat < ram.length
  stack : ram.drop ((cell ram regStk).toNat + 1) = region a.words a.calls
  frame : (cell ram regFrm).toNat + (region [] a.calls).length + 1 = ram.length
  saved : Saved ram.length a.calls
  small : region a.words a.calls ≠ [] → ram.length ≤ 2 ^ 31

/-- A cell of RAM that is none of the registers. -/
def PlainCell (ram : List Word) (r : Word) : Prop :=
  InRam ram r ∧ r ≠ regPc ∧ r ≠ regStk ∧ r ≠ regFrm

/-- The first operand is a literal or the content of a plain cell. -/
def PlainOperand (c : Chip) (pcmd : Command) : Prop :=
  arg0fGet pcmd.flags = .literal ∨ arg0fGet pcmd.flags = .ram ∧ PlainCell c.ram pcmd.arg0

def operandValue (c : Chip) (pcmd : Command) : Word :=
  match arg0fGet pcmd.flags with
  | .ram => cell c.ram pcmd.arg0
  | _ => pcmd.arg0

/-- What a command may do to a stack: no stack cell is as low as cell 34, only
words of the current frame are popped, into cells that are no part of what
stays on the stack, and only open calls are returned from. -/
def Allowed (c : Chip) (a : CallStack) (pcmd : Command) : Prop :=
  match Opcode.ofCode pcmd.cmd with
  | .push => PlainOperand c pcmd ∧ 34 < (cell c.ram regStk).toInt
  | .pop => arg0fGet pcmd.flags = .ram ∧ PlainCell c.ram pcmd.arg0 ∧
      pcmd.arg0.toInt ≤ (cell c.ram regStk).toInt + 1 ∧ a.words ≠ []
  | .call => PlainOperand c pcmd ∧ 35 < (cell c.ram regStk).toInt
  | .ret => a.calls ≠ []
  | _ => False

/-- The abstract stack after a command. -/
def CallStack.track (c : Chip) (pcmd : Command) (a : CallStack) : CallStack :=
  match Opcode.ofCode pcmd.cmd, a.calls with
  | .push, _ => { a with words := operandValue c pcmd :: a.words }
  | .pop, _ => { a with words := a.words.tail }
  | .call, _ =>
    ⟨[], ⟨cell c.ram regPc, cell c.ram regStk, cell c.ram regFrm, a.words⟩ :: a.calls⟩
  | .ret, o :: os => ⟨o.words, os⟩
  | _, _ => a

/-- What the program sees of the stack: a `pop` delivers the last word of the
frame, and a `ret` restores the registers of its call and goes on behind it. -/
def Delivers (a : CallStack) (pcmd : Command) (d : Chip) : Prop :=
  match Opcode.ofCode pcmd.cmd with
  | .pop => a.words.head? = some (cell d.ram pcmd.arg0)
  | .ret => ∃ o, a.calls.head? = some o ∧ cell d.ram regStk = o.stk ∧
      cell d.ram regFrm = o.frm ∧ cell d.ram regPc = o.pc + 1
  | _ => True

section Memory

variable {ram ram' : List Word} {a : CallStack} {v w : Word}

theorem region_ne_nil {words : List Word} {calls : List OpenCall} (h : words ≠ [] ∨ calls ≠ []) :
    region words calls ≠ [] := by
  cases calls with
  | nil => simpa [region] using h
  | cons o os => simp [region]

theorem toNat_pred {r : Word} (h : 0 < r.toInt) : (r - 1).toNat + 1 = r.toNat := by
  have hr := toNat_of_nonneg (Int.le_of_lt h)
  have hlt := r.isLt
  have hone : (1 : Word).toNat = 1 := rfl
  rw [BitVec.toNat_sub, hone]
  omega

theorem toNat_succ {r : Word} {n : Nat} (h : r.toNat < n) (hn : n ≤ 2 ^ 31) :
    (r + 1).toNat = r.toNat + 1 := by
  have hone : (1 : Word).toNat = 1 := rfl
  rw [BitVec.toNat_add, hone]
  omega

theorem Represents.length (hr : Represents ram a) :
    (cell ram regStk).toNat + (region a.words a.calls).length + 1 = ram.length := by
  rw [← hr.stack, List.length_drop]
  have := hr.top
  omega

/-- STK is below FRM by the words of the frame. -/
theorem Represents.words_length (hr : Represents ram a) :
    (cell ram regStk).toNat + a.words.length = (cell ram regFrm).toNat := by
  have hl := hr.length
  have hf := hr.frame
  rw [region_eq, List.length_append] at hl
  omega

theorem Represents.push (hr : Represents ram a) (hs : 34 < (cell ram regStk).toInt)
    (hlen : ram'.length = ram.length) (hstk : cell ram' regStk = cell ram regStk - 1)
    (hfrm : cell ram' regFrm = cell ram regFrm)
    (hdrop : ram'.drop (cell ram regStk).toNat = v :: ram.drop ((cell ram regStk).toNat + 1)) :
    Represents ram' ⟨v :: a.words, a.calls⟩ := by
  have hpred := toNat_pred (r := cell ram regStk) (by omega)
  have hnat := toNat_of_nonneg (r := cell ram regStk) (by omega)
  have htop := hr.top
  have hint := (cell ram regStk).toInt_lt
  have hwords : region (v :: a.words) a.calls = v :: region a.words a.calls := by
    rw [region_eq, List.cons_append, ← region_eq]
  refine ⟨by rw [hlen]; exact hr.size, ?_, ?_, ?_, ?_, ?_, fun _ => ?_⟩
  · rw [hstk]
    omega
  · rw [hstk, hlen]
    omega
  · rw [hstk, hpred, hdrop, hr.stack, hwords]
  · rw [hfrm, hlen]
    exact hr.frame
  · rw [hlen]
    exact hr.saved
  · by_cases hempty : region a.words a.calls = []
    · have hl := hr.length
      rw [hempty] at hl
      simp only [List.length_nil] at hl
      omega
    · rw [hlen]
      exact hr.small hempty

theorem Represents.pop (hr : Represents ram a) {ws : List Word} (hw : a.words = w :: ws)
    (hlen : ram'.length = ram.length) (hstk : cell ram' regStk = cell ram regStk + 1)
    (hfrm : cell ram' regFrm = cell ram regFrm)
    (hdrop : ram'.drop ((cell ram regStk).toNat + 2) = ram.drop ((cell ram regStk).toNat + 2)) :
    Represents ram' ⟨ws, a.calls⟩ := by
  have hsmall := hr.small (region_ne_nil (.inl (by simp [hw])))
  have hsucc := toNat_succ hr.top hsmall
  have hl := hr.words_length
  have hf := hr.frame
  rw [hw, List.length_cons] at hl
  have hstack := hr.stack
  rw [hw, region_eq, List.cons_append, ← region_eq] at hstack
  refine ⟨by rw [hlen]; exact hr.size, ?_, ?_, ?_, ?_, ?_, fun _ => ?_⟩
  · have := hr.floor
    rw [hstk, hsucc]
    omega
  · rw [hstk, hsucc, hlen]
    omega
  · rw [hstk, hsucc, hdrop]
    have htail := congrArg List.tail hstack
    rwa [List.tail_drop] at htail
  · rw [hfrm, hlen]
    exact hf
  · rw [hlen]
    exact hr.saved
  · rw [hlen]
    exact hsmall

theorem Represents.call (hr : Represents ram a) (hs : 35 < (cell ram regStk).toInt)
    (hlen : ram'.length = ram.length) (hstk : cell ram' regStk = cell ram regStk - 1 - 1)
    (hfrm : cell ram' regFrm = cell ram regStk - 1 - 1)
    (hdrop : ram'.drop (cell ram regStk - 1).toNat =
      cell ram regFrm :: v :: ram.drop ((cell ram regStk).toNat + 1)) :
    Represents ram' ⟨[], ⟨v, cell ram regStk, cell ram regFrm, a.words⟩ :: a.calls⟩ := by
  have hnat := toNat_of_nonneg (r := cell ram regStk) (by omega)
  have hpred := toNat_pred (r := cell ram regStk) (by omega)
  have hint := (cell ram regStk).toInt_lt
  have hpos : 0 < (cell ram regStk - 1).toInt := by
    rw [BitVec.toInt_eq_toNat_of_lt (by omega)]
    omega
  have hpred' := toNat_pred hpos
  have hl := hr.length
  refine ⟨by rw [hlen]; exact hr.size, ?_, ?_, ?_, ?_, ?_, fun _ => ?_⟩
  · rw [hstk]
    omega
  · rw [hstk, hlen]
    omega
  · rw [hstk, hpred', hdrop, hr.stack]
    rfl
  · rw [hfrm, hlen]
    simp only [region, List.nil_append, List.length_cons]
    omega
  · rw [hlen]
    exact ⟨hl, hr.frame, hr.saved⟩
  · by_cases hempty : region a.words a.calls = []
    · rw [hempty] at hl
      simp only [List.length_nil] at hl
      omega
    · rw [hlen]
      exact hr.small hempty

/-- Above FRM lie what the innermost call stored and its caller's region. -/
theorem Represents.above_frm (hr : Represents ram a) {o : OpenCall} {os : List OpenCall}
    (hc : a.calls = o :: os) :
    ram.drop ((cell ram regFrm).toNat + 1) = o.frm :: o.pc :: region o.words os := by
  have hstack := hr.stack
  rw [region_eq, hc] at hstack
  have hdrop := congrArg (List.drop a.words.length) hstack
  rw [List.drop_drop, List.drop_left] at hdrop
  rw [show (cell ram regFrm).toNat + 1 = (cell ram regStk).toNat + 1 + a.words.length by
    have := hr.words_length; omega, hdrop]
  rfl

theorem Represents.ret (hr : Represents ram a) {o : OpenCall} {os : List OpenCall}
    (hc : a.calls = o :: os) (hlen : ram'.length = ram.length)
    (hstk : cell ram' regStk = cell ram regFrm + 1 + 1) (hfrm : cell ram' regFrm = o.frm)
    (hdrop : ram'.drop ((cell ram regFrm).toNat + 3) = ram.drop ((cell ram regFrm).toNat + 3)) :
    Represents ram' ⟨o.words, os⟩ ∧ cell ram' regStk = o.stk := by
  have hsmall := hr.small (region_ne_nil (.inr (by simp [hc])))
  have hframe := hr.frame
  have hsaved := hr.saved
  rw [hc] at hframe hsaved
  obtain ⟨hs, hf, hsaved⟩ := hsaved
  simp only [region, List.nil_append, List.length_cons] at hframe
  have hsucc : (cell ram regFrm + 1).toNat = (cell ram regFrm).toNat + 1 :=
    toNat_succ (n := ram.length) (by omega) hsmall
  have hsucc' : (cell ram regFrm + 1 + 1).toNat = (cell ram regFrm).toNat + 2 := by
    rw [toNat_succ (n := ram.length) (by omega) hsmall]
    omega
  have hwords := hr.words_length
  have hfloor := hr.floor
  refine ⟨⟨by rw [hlen]; exact hr.size, ?_, ?_, ?_, ?_, ?_, fun _ => ?_⟩, ?_⟩
  · rw [hstk, hsucc']
    omega
  · rw [hstk, hsucc', hlen]
    omega
  · rw [hstk, hsucc', hdrop]
    have htail := congrArg (List.drop 2) (hr.above_frm hc)
    rwa [List.drop_drop] at htail
  · rw [hfrm, hlen]
    exact hf
  · rw [hlen]
    exact hsaved
  · rw [hlen]
    exact hsmall
  · refine BitVec.eq_of_toNat_eq ?_
    rw [hstk, hsucc']
    omega

end Memory

section Words

variable {c : Chip} {v : Word}

theorem pushWord_ok (hs : InRam c.ram regStk) (ht : InRam c.ram (cell c.ram regStk)) :
    pushWord c v = .ok { c with
      ram := (c.ram.set regStk.toNat (cell c.ram regStk - 1)).set (cell c.ram regStk).toNat v } := by
  simp only [pushWord, load_ok hs, store_ok hs, Runs.ok_bind]
  rw [store_ok (by simpa using ht)]

theorem popWord_ok (hs : InRam c.ram regStk) (ht : InRam c.ram (cell c.ram regStk + 1))
    (hne : regStk ≠ cell c.ram regStk + 1) :
    popWord c = .ok (cell c.ram (cell c.ram regStk + 1),
      { c with ram := c.ram.set regStk.toNat (cell c.ram regStk + 1) }) := by
  simp only [popWord, load_ok hs, store_ok hs, Runs.ok_bind]
  rw [load_ok (by simpa using ht), cell_set_ne hne]
  rfl

end Words

section Steps

variable {h : Host} {c : Chip} {a : CallStack} {pcmd : Command}

theorem getword_operand (hop : PlainOperand c pcmd) :
    getword h c (arg0fGet pcmd.flags) pcmd.arg0 = .ok (operandValue c pcmd, c) := by
  rcases hop with hm | ⟨hm, hr, _⟩
  · simp [operandValue, hm, getword]
  · simp [operandValue, hm, getword, load_ok hr]

/-- A plain operand is none of STK's business. -/
theorem PlainOperand.setStk (hop : PlainOperand c pcmd) (v : Word) :
    PlainOperand { c with ram := c.ram.set regStk.toNat v } pcmd ∧
      operandValue { c with ram := c.ram.set regStk.toNat v } pcmd = operandValue c pcmd := by
  rcases hop with hm | ⟨hm, hr, n₁, n₂, n₃⟩
  · exact ⟨.inl hm, by simp only [operandValue, hm]⟩
  · refine ⟨.inr ⟨hm, by simpa using hr, n₁, n₂, n₃⟩, ?_⟩
    simp only [operandValue, hm, cell_set_ne n₂.symm]

/-- With a plain operand it is all one which side `push` evaluates first. -/
theorem cmdPush_plain (hop : PlainOperand c pcmd) (hstk : InRam c.ram regStk) :
    cmdPush h c pcmd = pushWord c (operandValue c pcmd) >>= fun d => pure (d, pcmd) := by
  unfold cmdPush
  split
  · obtain ⟨hop', hval⟩ := hop.setStk (cell c.ram regStk - 1)
    simp only [pushWord, load_ok hstk, store_ok hstk, Runs.ok_bind, getword_operand hop', hval]
  · simp only [getword_operand hop, Runs.ok_bind]

theorem reg_ne : regPc ≠ regStk ∧ regPc ≠ regFrm ∧ regStk ≠ regFrm := by decide

theorem reg_toNat : regPc.toNat = 32 ∧ regStk.toNat = 33 ∧ regFrm.toNat = 34 := by decide

theorem ne_of_toNat {r s : Word} (h : r.toNat ≠ s.toNat) : r ≠ s := fun he => h (he ▸ rfl)

/-- Above the stack pointer no cell is a register. -/
theorem Represents.ne_reg (hr : Represents c.ram a) {r : Word}
    (h : (cell c.ram regStk).toNat < r.toNat) : r ≠ regPc ∧ r ≠ regStk ∧ r ≠ regFrm := by
  have := hr.floor
  obtain ⟨h₁, h₂, h₃⟩ := reg_toNat
  exact ⟨ne_of_toNat (by omega), ne_of_toNat (by omega), ne_of_toNat (by omega)⟩

theorem Represents.inRam_reg (hr : Represents c.ram a) :
    InRam c.ram regPc ∧ InRam c.ram regStk ∧ InRam c.ram regFrm :=
  ⟨Vm.inRam_reg hr.size (by decide), Vm.inRam_reg hr.size (by decide),
    Vm.inRam_reg hr.size (by decide)⟩

/-- What one word on the stack changes: the cell STK points to, and STK. -/
theorem pushWord_spec {v : Word} (hsize : 36 ≤ c.ram.length) (hs : 34 < (cell c.ram regStk).toInt)
    (htop : (cell c.ram regStk).toNat < c.ram.length) :
    ∃ d, pushWord c v = .ok d ∧ d.ram.length = c.ram.length ∧
      cell d.ram regStk = cell c.ram regStk - 1 ∧ cell d.ram regFrm = cell c.ram regFrm ∧
      d.ram.drop (cell c.ram regStk).toNat = v :: c.ram.drop ((cell c.ram regStk).toNat + 1) := by
  obtain ⟨t₁, t₂, t₃⟩ := reg_toNat
  have hstk : InRam c.ram regStk := inRam_reg hsize (by decide)
  have hnat := toNat_of_nonneg (r := cell c.ram regStk) (by omega)
  have hint := (cell c.ram regStk).toInt_lt
  have n₁ : cell c.ram regStk ≠ regStk := ne_of_toNat (by omega)
  have n₂ : cell c.ram regStk ≠ regFrm := ne_of_toNat (by omega)
  refine ⟨_, pushWord_ok hstk (inRam_of_lt htop (by omega)), by simp, ?_, ?_, ?_⟩
  · simp only
    rw [cell_set_ne n₁, cell_set_self hstk]
  · simp only
    rw [cell_set_ne n₂, cell_set_ne reg_ne.2.2]
  · simp only
    rw [drop_set_self (by simpa using htop), List.drop_set_of_lt (by omega)]

theorem push_step (hr : Represents c.ram a) (hop : PlainOperand c pcmd)
    (hs : 34 < (cell c.ram regStk).toInt) (hcode : Opcode.ofCode pcmd.cmd = .push) :
    ∃ d, execute h c pcmd = .ok (d, pcmd) ∧
      Represents d.ram ⟨operandValue c pcmd :: a.words, a.calls⟩ := by
  obtain ⟨n₁, n₂, _⟩ := reg_ne
  obtain ⟨t₁, _, _⟩ := reg_toNat
  obtain ⟨c₁, hpush, hlen, hstk, hfrm, hdrop⟩ :=
    pushWord_spec (v := operandValue c pcmd) hr.size hs hr.top
  have hnat := toNat_of_nonneg (r := cell c.ram regStk) (by omega)
  have hcmd : commands (.ofCode pcmd.cmd) h c pcmd = .ok (c₁, pcmd) := by
    simp only [hcode, commands, cmdPush_plain hop hr.inRam_reg.2.1, hpush, Runs.ok_bind, Runs.pure_ok]
  have hpc : InRam c₁.ram regPc := inRam_reg (hlen ▸ hr.size) (by decide)
  refine ⟨_, execute_ok hcmd hpc, hr.push hs (by simpa using hlen) ?_ ?_ ?_⟩
  · simp only [cell_set_ne n₁, hstk]
  · simp only [cell_set_ne n₂, hfrm]
  · simp only
    rw [List.drop_set_of_lt (by omega), hdrop]

theorem pop_step (hr : Represents c.ram a) (hm : arg0fGet pcmd.flags = .ram)
    (hcell : PlainCell c.ram pcmd.arg0)
    (hout : pcmd.arg0.toInt ≤ (cell c.ram regStk).toInt + 1) {w : Word} {ws : List Word}
    (hw : a.words = w :: ws) (hcode : Opcode.ofCode pcmd.cmd = .pop) :
    ∃ d, execute h c pcmd = .ok (d, pcmd) ∧ Represents d.ram ⟨ws, a.calls⟩ ∧
      cell d.ram pcmd.arg0 = w := by
  obtain ⟨hpc, hstk, hfrm⟩ := hr.inRam_reg
  obtain ⟨n₁, n₂, n₃⟩ := reg_ne
  obtain ⟨t₁, t₂, t₃⟩ := reg_toNat
  obtain ⟨hin, d₁, d₂, d₃⟩ := hcell
  have hsmall := hr.small (region_ne_nil (.inl (by simp [hw])))
  have hsucc := toNat_succ hr.top hsmall
  have hl := hr.words_length
  have hf := hr.frame
  rw [hw, List.length_cons] at hl
  have hslot : InRam c.ram (cell c.ram regStk + 1) :=
    inRam_of_lt (by omega) (by omega)
  have hne : cell c.ram regStk + 1 ≠ regStk := (hr.ne_reg (by omega)).2.1
  have hdest : pcmd.arg0.toNat ≤ (cell c.ram regStk).toNat + 1 := by
    have := toNat_of_nonneg hin.1
    have htop := hr.top
    rw [BitVec.toInt_eq_toNat_of_lt (x := cell c.ram regStk) (by omega)] at hout
    omega
  have hword : cell c.ram (cell c.ram regStk + 1) = w := by
    have hstack := hr.stack
    rw [← hsucc, hw, region_eq, List.cons_append] at hstack
    exact cell_of_drop hstack
  have hcmd : commands (.ofCode pcmd.cmd) h c pcmd = .ok ({ c with
      ram := (c.ram.set regStk.toNat (cell c.ram regStk + 1)).set pcmd.arg0.toNat w }, pcmd) := by
    simp only [hcode, commands, cmdPop, popWord_ok hstk hslot hne.symm, hm, setword, hword,
      Runs.ok_bind, Runs.pure_ok]
    rw [store_ok (by simpa using hin)]
    rfl
  refine ⟨_, execute_ok hcmd (by simpa using hpc), hr.pop hw (by simp) ?_ ?_ ?_, ?_⟩
  · simp only
    rw [cell_set_ne n₁, cell_set_ne d₂, cell_set_self hstk]
  · simp only
    rw [cell_set_ne n₂, cell_set_ne d₃, cell_set_ne n₃]
  · have := hr.floor
    simp only
    rw [List.drop_set_of_lt (by omega), List.drop_set_of_lt (by omega),
      List.drop_set_of_lt (by omega)]
  · simp only
    rw [cell_set_ne d₁.symm, cell_set_self (by simpa using hin)]

theorem call_step (hr : Represents c.ram a) (hop : PlainOperand c pcmd)
    (hs : 35 < (cell c.ram regStk).toInt) (hcode : Opcode.ofCode pcmd.cmd = .call) :
    ∃ d, execute h c pcmd = .ok (d, pcmd) ∧ Represents d.ram
      ⟨[], ⟨cell c.ram regPc, cell c.ram regStk, cell c.ram regFrm, a.words⟩ :: a.calls⟩ := by
  obtain ⟨n₁, n₂, n₃⟩ := reg_ne
  obtain ⟨t₁, t₂, t₃⟩ := reg_toNat
  have hnat := toNat_of_nonneg (r := cell c.ram regStk) (by omega)
  have hint := (cell c.ram regStk).toInt_lt
  have hpred := toNat_pred (r := cell c.ram regStk) (by omega)
  have htop := hr.top
  obtain ⟨c₁, hpush₁, hlen₁, hstk₁, hfrm₁, hdrop₁⟩ :=
    pushWord_spec (v := cell c.ram regPc) hr.size (by omega) htop
  have hs₁ : 34 < (cell c₁.ram regStk).toInt := by
    rw [hstk₁, BitVec.toInt_eq_toNat_of_lt (by omega)]
    omega
  obtain ⟨c₂, hpush₂, hlen₂, hstk₂, _, hdrop₂⟩ :=
    pushWord_spec (v := cell c.ram regFrm) (hlen₁ ▸ hr.size) hs₁ (by rw [hstk₁, hlen₁]; omega)
  rw [hstk₁] at hstk₂ hdrop₂
  have hsize₁ : 36 ≤ c₁.ram.length := hlen₁ ▸ hr.size
  have hsize₂ : 36 ≤ c₂.ram.length := hlen₂ ▸ hsize₁
  have hcmd : commands (.ofCode pcmd.cmd) h c pcmd = .ok ({ c₂ with
      ram := (c₂.ram.set regFrm.toNat (cell c.ram regStk - 1 - 1)).set regPc.toNat
        (operandValue c pcmd - 1) }, pcmd) := by
    simp only [hcode, commands, cmdCall, getword_operand hop, load_ok hr.inRam_reg.1, hpush₁,
      load_ok (inRam_reg hsize₁ (r := regFrm) (by decide)), hfrm₁, hpush₂,
      load_ok (inRam_reg hsize₂ (r := regStk) (by decide)), hstk₂,
      store_ok (inRam_reg hsize₂ (r := regFrm) (by decide)), Runs.ok_bind, Runs.pure_ok]
    rw [store_ok (inRam_reg (by simpa using hsize₂) (by decide))]
    rfl
  have hpc₂ := inRam_reg hsize₂ (r := regPc) (by decide)
  refine ⟨_, execute_ok hcmd (by simpa using hpc₂), hr.call hs ?_ ?_ ?_ ?_⟩
  · simp [hlen₂, hlen₁]
  · simp only [cell_set_ne n₁, cell_set_ne n₃.symm, hstk₂]
  · simp only [cell_set_ne n₂, cell_set_self (inRam_reg hsize₂ (r := regFrm) (by decide))]
  · simp only
    rw [List.drop_set_of_lt (by omega), List.drop_set_of_lt (by omega),
      List.drop_set_of_lt (by omega), hdrop₂, hpred, hdrop₁]

/-- The two words `ret` takes lie right above FRM. -/
theorem Represents.ret_words (hr : Represents c.ram a) {o : OpenCall} {os : List OpenCall}
    (hc : a.calls = o :: os) :
    (cell c.ram regFrm + 1).toNat = (cell c.ram regFrm).toNat + 1 ∧
      (cell c.ram regFrm + 1 + 1).toNat = (cell c.ram regFrm).toNat + 2 ∧
      InRam c.ram (cell c.ram regFrm + 1) ∧ InRam c.ram (cell c.ram regFrm + 1 + 1) ∧
      cell c.ram (cell c.ram regFrm + 1) = o.frm ∧
      cell c.ram (cell c.ram regFrm + 1 + 1) = o.pc := by
  have hsmall := hr.small (region_ne_nil (.inr (by simp [hc])))
  have habove := hr.above_frm hc
  have hlen := congrArg List.length habove
  simp only [List.length_drop, List.length_cons] at hlen
  have hsucc : (cell c.ram regFrm + 1).toNat = (cell c.ram regFrm).toNat + 1 :=
    toNat_succ (n := c.ram.length) (by omega) hsmall
  have hsucc' : (cell c.ram regFrm + 1 + 1).toNat = (cell c.ram regFrm).toNat + 2 := by
    rw [toNat_succ (n := c.ram.length) (by omega) hsmall]
    omega
  have htail := congrArg List.tail habove
  rw [List.tail_drop, ← hsucc', List.tail_cons] at htail
  rw [← hsucc] at habove
  exact ⟨hsucc, hsucc', inRam_of_lt (by omega) (by omega), inRam_of_lt (by omega) (by omega),
    cell_of_drop habove, cell_of_drop htail⟩

theorem ret_step (hr : Represents c.ram a) {o : OpenCall} {os : List OpenCall}
    (hc : a.calls = o :: os) (hcode : Opcode.ofCode pcmd.cmd = .ret) :
    ∃ d, execute h c pcmd = .ok (d, pcmd) ∧ Represents d.ram ⟨o.words, os⟩ ∧
      cell d.ram regStk = o.stk ∧ cell d.ram regFrm = o.frm ∧ cell d.ram regPc = o.pc + 1 := by
  obtain ⟨hpc, hstk, hfrm⟩ := hr.inRam_reg
  obtain ⟨n₁, n₂, n₃⟩ := reg_ne
  obtain ⟨t₁, t₂, t₃⟩ := reg_toNat
  obtain ⟨hsucc, hsucc', hslot, hslot', hread, hread'⟩ := hr.ret_words hc
  have hfloor := hr.floor
  have hwords := hr.words_length
  obtain ⟨_, k₂, _⟩ := hr.ne_reg (r := cell c.ram regFrm + 1) (by omega)
  obtain ⟨_, l₂, l₃⟩ := hr.ne_reg (r := cell c.ram regFrm + 1 + 1) (by omega)
  -- the memory as STK is set, as the first word is taken, and as FRM is set
  let ram₁ := c.ram.set regStk.toNat (cell c.ram regFrm)
  let ram₂ := ram₁.set regStk.toNat (cell c.ram regFrm + 1)
  let ram₃ := ram₂.set regFrm.toNat o.frm
  have hstk₁ : cell ram₁ regStk = cell c.ram regFrm := cell_set_self hstk
  have hstk₃ : cell ram₃ regStk = cell c.ram regFrm + 1 := by
    rw [cell_set_ne n₃.symm, cell_set_self (by simpa [ram₁] using hstk)]
  have hfrm₃ : cell ram₃ regFrm = o.frm := cell_set_self (by simpa [ram₂, ram₁] using hfrm)
  have hpop₁ : popWord { c with ram := ram₁ } = .ok (o.frm, { c with ram := ram₂ }) := by
    rw [popWord_ok (by simpa [ram₁] using hstk) (by simpa [hstk₁, ram₁] using hslot)
      (by simpa [hstk₁] using k₂.symm)]
    simp only [hstk₁, ram₁, ram₂, cell_set_ne k₂.symm, hread]
  have hpop₃ : popWord { c with ram := ram₃ } = .ok (o.pc, { c with
      ram := ram₃.set regStk.toNat (cell c.ram regFrm + 1 + 1) }) := by
    rw [popWord_ok (by simpa [ram₃, ram₂, ram₁] using hstk)
      (by rw [hstk₃]; simpa [ram₃, ram₂, ram₁] using hslot') (by simpa [hstk₃] using l₂.symm)]
    simp only [hstk₃, ram₃, ram₂, ram₁, cell_set_ne l₃.symm, cell_set_ne l₂.symm, hread']
  have hcmd : commands (.ofCode pcmd.cmd) h c pcmd = .ok ({ c with
      ram := (ram₃.set regStk.toNat (cell c.ram regFrm + 1 + 1)).set regPc.toNat o.pc },
      pcmd) := by
    simp only [hcode, commands, cmdRet, load_ok hfrm, store_ok hstk, Runs.ok_bind]
    rw [show popWord _ = _ from hpop₁, Runs.ok_bind,
      store_ok (show InRam ram₂ regFrm by simpa [ram₂, ram₁] using hfrm), Runs.ok_bind,
      show popWord _ = _ from hpop₃, Runs.ok_bind,
      store_ok (show InRam _ regPc by simpa [ram₃, ram₂, ram₁] using hpc)]
    rfl
  have hpc₃ : InRam (ram₃.set regStk.toNat (cell c.ram regFrm + 1 + 1)) regPc := by
    simpa [ram₃, ram₂, ram₁] using hpc
  have hexec := execute_ok hcmd (by simpa using hpc₃)
  simp only [cell_set_self hpc₃] at hexec
  have hback : Represents (((ram₃.set regStk.toNat (cell c.ram regFrm + 1 + 1)).set
      regPc.toNat o.pc).set regPc.toNat (o.pc + 1)) ⟨o.words, os⟩ ∧ _ :=
    hr.ret hc (by simp [ram₃, ram₂, ram₁])
    (by rw [cell_set_ne n₁, cell_set_ne n₁, cell_set_self (by simpa [ram₃, ram₂, ram₁] using hstk)])
    (by rw [cell_set_ne n₂, cell_set_ne n₂, cell_set_ne n₃, hfrm₃])
    (by
      simp only [ram₃, ram₂, ram₁]
      repeat rw [List.drop_set_of_lt (by omega)])
  refine ⟨_, hexec, hback.1, hback.2, ?_, cell_set_self (by simpa using hpc₃)⟩
  simp only [cell_set_ne n₂, cell_set_ne n₃, hfrm₃]

end Steps

instance (c : Chip) (pcmd : Command) : Decidable (PlainOperand c pcmd) :=
  inferInstanceAs (Decidable (_ ∨ _ ∧ InRam _ _ ∧ _ ≠ _ ∧ _ ≠ _ ∧ _ ≠ _))

instance (c : Chip) (a : CallStack) (pcmd : Command) : Decidable (Allowed c a pcmd) := by
  unfold Allowed PlainCell
  split <;> infer_instance

/-- A dispatch next to the abstract stack. -/
def stackStep (h : Host) (x : Chip × CallStack) (pcmd : Command) :
    Except Fault (Chip × CallStack) := do
  let (d, _) ← execute h x.1 pcmd
  pure (d, x.2.track x.1 pcmd)

/-- The words of the frame a call was made in, as they lie in RAM. -/
def outerWords (ram : List Word) (o : OpenCall) : List Word :=
  (ram.drop (o.stk.toNat + 1)).take o.words.length

theorem outerWords_of_saved {ram : List Word} {calls : List OpenCall} {n : Nat} {words : List Word}
    (hs : Saved ram.length calls) (hd : ram.drop n = region words calls)
    (hn : n + (region words calls).length = ram.length) :
    ∀ o ∈ calls, outerWords ram o = o.words := by
  induction calls generalizing n words with
  | nil => simp
  | cons o os ih =>
    obtain ⟨hstk, _, hs⟩ := hs
    have hback : ram.drop (o.stk.toNat + 1) = region o.words os := by
      have hdrop := congrArg (List.drop (words.length + 2)) hd
      rw [List.drop_drop, region, List.drop_length_add_append] at hdrop
      simp only [region, List.length_append, List.length_cons] at hn
      rw [show o.stk.toNat + 1 = n + (words.length + 2) by omega, hdrop]
      rfl
    intro o' ho
    rcases List.mem_cons.mp ho with rfl | ho
    · rw [outerWords, hback, region_eq, List.take_left]
    · exact ih hs hback (by omega) o' ho

theorem Represents.outer {ram : List Word} {a : CallStack} (hr : Represents ram a) :
    ∀ o ∈ a.calls, outerWords ram o = o.words :=
  outerWords_of_saved hr.saved hr.stack (by have := hr.length; omega)

/-- One step: an allowed command is executed, the memory stands for the new
stack, and the program sees what the abstract stack says. -/
theorem step_represents {h : Host} {c : Chip} {a : CallStack} {pcmd : Command}
    (hr : Represents c.ram a) (hp : Allowed c a pcmd) :
    ∃ d, execute h c pcmd = .ok (d, pcmd) ∧ Represents d.ram (a.track c pcmd) ∧
      Delivers a pcmd d := by
  unfold Allowed at hp
  split at hp
  · next hcode =>
    obtain ⟨d, hd, hrep⟩ := push_step (h := h) hr hp.1 hp.2 hcode
    exact ⟨d, hd, by simpa [CallStack.track, hcode] using hrep, by simp [Delivers, hcode]⟩
  · next hcode =>
    obtain ⟨hm, hcell, hout, hne⟩ := hp
    obtain ⟨w, ws, hw⟩ := List.exists_cons_of_ne_nil hne
    obtain ⟨d, hd, hrep, hval⟩ := pop_step (h := h) hr hm hcell hout hw hcode
    exact ⟨d, hd, by simpa [CallStack.track, hcode, hw] using hrep, by simp [Delivers, hcode, hw, hval]⟩
  · next hcode =>
    obtain ⟨d, hd, hrep⟩ := call_step (h := h) hr hp.1 hp.2 hcode
    exact ⟨d, hd, by simpa [CallStack.track, hcode] using hrep, by simp [Delivers, hcode]⟩
  · next hcode =>
    obtain ⟨o, os, hc⟩ := List.exists_cons_of_ne_nil hp
    obtain ⟨d, hd, hrep, hval⟩ := ret_step (h := h) hr hc hcode
    exact ⟨d, hd, by simpa [CallStack.track, hcode, hc] using hrep,
      by simpa [Delivers, hcode, hc] using hval⟩
  · exact hp.elim

/-- STK and FRM as `initr` leaves them stand for the empty stack. -/
theorem represents_empty {ram : List Word} (hsize : 36 ≤ ram.length)
    (hstk : (cell ram regStk).toNat + 1 = ram.length)
    (hfrm : (cell ram regFrm).toNat + 1 = ram.length) : Represents ram ⟨[], []⟩ where
  size := hsize
  floor := by omega
  top := by omega
  stack := by rw [hstk, List.drop_length]; rfl
  frame := hfrm
  saved := trivial
  small := fun h => absurd rfl h

/-- The memory `initr` leaves holds the empty stack. -/
theorem initr_represents {size : Word} (words : Nat → Word) (hsize : 36 ≤ size.toNat) :
    Represents (initRam size words) ⟨[], []⟩ := by
  have hone : (1 : Word).toNat = 1 := rfl
  have hlen : (initRam size words).length = size.toNat := by simp [initRam]
  have hin : ∀ r : Word, r.toNat < 36 → InRam ((List.range size.toNat).map words) r :=
    fun r hr => inRam_reg (by simpa using hsize) hr
  have hpred : (size - 1).toNat + 1 = size.toNat := by
    have := size.isLt
    rw [BitVec.toNat_sub, hone]
    omega
  refine represents_empty (by omega) ?_ ?_
  · rw [hlen, initRam, cell_set_ne reg_ne.2.2.symm, cell_set_self (by simpa using hin _ (by decide)),
      hpred]
  · rw [hlen, initRam, cell_set_self (by simpa using hin _ (by decide)), hpred]

theorem run_represents {h : Host} {cmds : List Command} {c : Chip} {a : CallStack}
    (hr : Represents c.ram a)
    (hops : Runs.Along (stackStep h) (fun x pcmd => Allowed x.1 x.2 pcmd) cmds (c, a)) :
    ∃ x, Runs.run (stackStep h) cmds (c, a) = .ok x ∧ Represents x.1.ram x.2 := by
  refine Runs.run_total (I := fun x => Represents x.1.ram x.2) _ ?_ hr hops
  intro x pcmd hx hp
  obtain ⟨d, hd, hrep, _⟩ := step_represents (h := h) hx hp
  exact ⟨(d, x.2.track x.1 pcmd), by simp [stackStep, hd], hrep⟩

/-- The stack in RAM refines the abstract call stack. -/
theorem stack_refines (h : Host) (c : Chip) (hsize : 36 ≤ c.ram.length)
    (hstk : (cell c.ram regStk).toNat + 1 = c.ram.length)
    (hfrm : (cell c.ram regFrm).toNat + 1 = c.ram.length) (cmds : List Command)
    (hops : Runs.Along (stackStep h) (fun x pcmd => Allowed x.1 x.2 pcmd) cmds (c, ⟨[], []⟩)) :
    (∃ x, Runs.run (stackStep h) cmds (c, ⟨[], []⟩) = .ok x) ∧
    ∀ front pcmd rest, cmds = front ++ pcmd :: rest →
      ∃ c₁ a₁ c₂, Runs.run (stackStep h) front (c, ⟨[], []⟩) = .ok (c₁, a₁) ∧
        execute h c₁ pcmd = .ok (c₂, pcmd) ∧ Delivers a₁ pcmd c₂ ∧
        Represents c₂.ram (a₁.track c₁ pcmd) ∧
        ∀ o ∈ (a₁.track c₁ pcmd).calls, outerWords c₂.ram o = o.words := by
  have hr := represents_empty hsize hstk hfrm
  obtain ⟨x, hx, _⟩ := run_represents hr hops
  refine ⟨⟨x, hx⟩, ?_⟩
  rintro front pcmd rest rfl
  obtain ⟨hfront, hlast⟩ := (Runs.along_append (stackStep h)).mp hops
  obtain ⟨⟨c₁, a₁⟩, hrun, hr₁⟩ := run_represents hr hfront
  obtain ⟨c₂, hexec, hrep, hdel⟩ := step_represents (h := h) hr₁ (hlast _ hrun).1
  exact ⟨c₁, a₁, c₂, hrun, hexec, hdel, hrep, hrep.outer⟩

/-- Neither a file nor memory. -/
def bareHost : Host where
  dataLoad _ data := (-1, data)
  length_dataLoad _ _ := rfl
  malloc _ := none
  tmp := ⟨0, 0, 0, 0⟩
  stkFirst := true

/-- A machine of 40 cells as `initr` leaves it. -/
def bareChip : Chip :=
  { Chip.new [] with ram := List.replicate 32 0 ++ [1, 39, 39] ++ List.replicate 5 0 }

/-- `push 7`, `call 5`, `push 9`, `ret` with a word left on the stack, `pop $35`. -/
def nestedOps : List Command :=
  [⟨0, 0x25, 7, 0⟩, ⟨0, 0x23, 5, 0⟩, ⟨0, 0x25, 9, 0⟩, ⟨0, 0x24, 0, 0⟩, ⟨1, 0x26, 35, 0⟩]

theorem stack_refines_nested :
    (∃ x, Runs.run (stackStep bareHost) nestedOps (bareChip, ⟨[], []⟩) = .ok x) ∧
    ∀ front pcmd rest, nestedOps = front ++ pcmd :: rest →
      ∃ c₁ a₁ c₂, Runs.run (stackStep bareHost) front (bareChip, ⟨[], []⟩) = .ok (c₁, a₁) ∧
        execute bareHost c₁ pcmd = .ok (c₂, pcmd) ∧ Delivers a₁ pcmd c₂ ∧
        Represents c₂.ram (a₁.track c₁ pcmd) ∧
        ∀ o ∈ (a₁.track c₁ pcmd).calls, outerWords c₂.ram o = o.words :=
  stack_refines bareHost bareChip (by decide) (by decide) (by decide) nestedOps (by decide +kernel)

end Vm
