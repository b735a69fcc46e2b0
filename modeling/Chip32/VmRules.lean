import Chip32.Leads
import Chip32.VmCalls
import Chip32.VmStep

/-!
# Rules for guest programs

Preconditions and postconditions of the commands at given places of a program, said of the
machine but for its PC, and from them rules for what programs are made of: a loop that is
left when a cell is 0, and a loop that a cell counts.
-/
namespace Vm

open Runs (Leads)
open ObjectFile (commandsSave)

/-- The machine but for its PC. -/
def Chip.aside (c : Chip) : Chip := { c with ram := goto c.ram 0 }

/-- At the head of the loop, `n` being the next command, with `P` of all but the PC. -/
structure At (n : Nat) (P : Chip → Prop) (c : Chip) : Prop where
  running : c.state = .running
  size : 36 ≤ c.ram.length
  pc : (cell c.ram regPc).toInt = n
  holds : P c.aside

/-- The machine with another word in a cell. -/
def Chip.assign (c : Chip) (r v : Word) : Chip := { c with ram := c.ram.set r.toNat v }

section Commands

variable {h : Host} {prog : List Command} {n m : Nat} {P Q : Chip → Prop} {c d : Chip}
  {pcmd q : Command}

theorem At.index (ha : At n P c) : pcIndex c = n := by
  have hpc := ha.pc
  have hnn : 0 ≤ (cell c.ram regPc).toInt := by omega
  rw [pcIndex, signExtend_toNat hnn]
  have := toNat_of_nonneg hnn
  omega

theorem At.turn (ha : At n P c) (hcode : prog[n]? = some pcmd)
    (he : execute h c pcmd = .ok (d, q)) : flatTurn h prog c = .ok (.next d) := by
  have hidx : ((cell c.ram regPc).signExtend 64).toNat = n := ha.index
  simp only [flatTurn, ha.running, ne_eq, not_true_eq_false, if_false,
    load_ok (inRam_reg ha.size (r := regPc) (by decide)), Runs.ok_bind, hidx, hcode, he]
  rfl

theorem At.mono (ha : At n P c) (hpq : ∀ c, P c → Q c) : At n Q c :=
  ⟨ha.running, ha.size, ha.pc, hpq _ ha.holds⟩

/-- What there is to show of one command. -/
theorem leads_command (hcode : prog[n]? = some pcmd)
    (he : ∀ c, At n P c → ∃ d, execute h c pcmd = .ok (d, pcmd) ∧ At m Q d) :
    Leads (flatTurn h prog) (At n P) (At m Q) := by
  refine .step fun c hc => ?_
  obtain ⟨d, hd, hq⟩ := he c hc
  exact ⟨d, hc.turn hcode hd, hq⟩

theorem goto_goto (ram : List Word) (v w : Word) : goto (goto ram v) w = goto ram w := by
  simp [goto]

theorem aside_goto (c : Chip) (v : Word) : Chip.aside { c with ram := goto c.ram v } = c.aside := by
  simp only [Chip.aside, goto_goto]

theorem aside_assign (c : Chip) {r : Word} (v : Word) (hr : r ≠ regPc) :
    (c.assign r v).aside = c.aside.assign r v := by
  have hne : r.toNat ≠ regPc.toNat := fun he => hr (BitVec.eq_of_toNat_eq he)
  simp only [Chip.aside, Chip.assign, goto, List.set_comm _ _ hne]

theorem cell_aside {r : Word} (hr : r ≠ regPc) : cell c.aside.ram r = cell c.ram r :=
  cell_set_ne hr.symm

/-- The machine is at another place. -/
theorem At.of_goto {v : Word} (ha : At n P c) (hv : v.toInt = m) (hq : Q c.aside) :
    At m Q { c with ram := goto c.ram v } where
  running := ha.running
  size := by
    rw [goto, List.length_set]
    exact ha.size
  pc := by
    rw [goto, cell_set_self (inRam_reg ha.size (by decide))]
    exact hv
  holds := by
    rw [aside_goto]
    exact hq

theorem toInt_succ {v : Word} (hv : v.toInt = n) (hn : n + 1 < 2 ^ 31) :
    (v + 1).toInt = ((n + 1 : Nat) : Int) := by
  have hnat := toNat_of_nonneg (r := v) (by omega)
  have hsucc : (v + 1).toNat = v.toNat + 1 := by
    have hone : (1 : Word).toNat = 1 := rfl
    rw [BitVec.toNat_add, hone]
    omega
  rw [BitVec.toInt_eq_toNat_of_lt (by omega), hsucc]
  omega

/-- A data command with a cell to store to. -/
theorem leads_data {f : Word → Word → Word} (hcode : prog[n]? = some pcmd)
    (hn : n + 1 < 2 ^ 31) (hf : table (.ofCode pcmd.cmd) = some f)
    (hp : ∀ c, At n P c → Ready h c pcmd ∧ ¬ Starved h c pcmd ∧ ∃ r, r ≠ regPc ∧
      destination c.ram (arg0fGet pcmd.flags) pcmd.arg0 = some r ∧
      Q (c.aside.assign r (f (operand0 h c pcmd) (operand1 h c pcmd)))) :
    Leads (flatTurn h prog) (At n P) (At (n + 1) Q) := by
  refine leads_command hcode fun c hc => ?_
  obtain ⟨⟨hpc, hfst, hsnd, hdef⟩, hfed, r, hr, hdest, hq⟩ := hp c hc
  have hrun := commands_data hf hfst hsnd hdef
  have hput : c.put (arg0fGet pcmd.flags) pcmd.arg0 (f (operand0 h c pcmd) (operand1 h c pcmd)) =
      c.assign r (f (operand0 h c pcmd) (operand1 h c pcmd)) := by
    rw [Chip.put, hdest]
    rfl
  rw [failIf_false (show ¬ (_ ∧ _) from hfed), hput] at hrun
  have hsize : 36 ≤ (c.assign r (f (operand0 h c pcmd) (operand1 h c pcmd))).ram.length := by
    rw [Chip.assign, List.length_set]
    exact hc.size
  have hsame : cell (c.assign r (f (operand0 h c pcmd) (operand1 h c pcmd))).ram regPc =
      cell c.ram regPc := cell_set_ne hr
  refine ⟨_, execute_ok hrun (inRam_reg hsize (by decide)), ?_⟩
  refine At.of_goto (n := n) (P := Q) ⟨hc.running, hsize, hsame ▸ hc.pc, ?_⟩
    (toInt_succ (hsame ▸ hc.pc) hn) ?_ <;>
  · rw [aside_assign c _ hr]
    exact hq

/-- A jump. -/
theorem leads_jmp (hcode : prog[n]? = some pcmd) (hop : Opcode.ofCode pcmd.cmd = .jmp)
    (hp : ∀ c, At n P c → Reaches c.ram (arg0fGet pcmd.flags) pcmd.arg0 ∧
      ¬ Unloaded h (arg0fGet pcmd.flags) pcmd.arg0 ∧ (operand0 h c pcmd).toInt = m ∧ Q c.aside) :
    Leads (flatTurn h prog) (At n P) (At m Q) := by
  refine leads_command hcode fun c hc => ?_
  obtain ⟨hr, hfed, hto, hq⟩ := hp c hc
  have hpc := inRam_reg hc.size (r := regPc) (by decide)
  have hrun : commands (.ofCode pcmd.cmd) h c pcmd = _ :=
    (congrArg (commands · h c pcmd) hop).trans (jmp_reaches hpc hr)
  rw [failIf_false hfed] at hrun
  have hexec := execute_ok hrun (by simpa [goto] using hpc)
  exact ⟨_, hexec.trans (by rw [← tick, goto_tick _ hpc]), hc.of_goto hto hq⟩

/-- A conditional jump that is taken. -/
theorem leads_taken (hcode : prog[n]? = some pcmd)
    (hp : ∀ c, At n P c → Ready h c pcmd ∧ ¬ Unloaded h (arg0fGet pcmd.flags) pcmd.arg0 ∧
      ¬ Starved h c pcmd ∧ taken (.ofCode pcmd.cmd) (operand0 h c pcmd) = some true ∧
      (operand1 h c pcmd).toInt = m ∧ Q c.aside) :
    Leads (flatTurn h prog) (At n P) (At m Q) := by
  refine leads_command hcode fun c hc => ?_
  obtain ⟨⟨hpc, hfst, hsnd, _⟩, hfed, hfed', htaken, hto, hq⟩ := hp c hc
  obtain ⟨test, hcmd, ht, hlook⟩ : ∃ test, commands (.ofCode pcmd.cmd) h c pcmd =
      cmdJumpIf test h c pcmd ∧ test (operand0 h c pcmd) = true ∧ _ := commands_taken htaken
  have hrun := hcmd.trans (jumpIf_reaches (h := h) hpc hfst fun _ => hsnd hlook)
  have hnot : ¬ (Unloaded h (arg0fGet pcmd.flags) pcmd.arg0 ∨
      test (operand0 h c pcmd) ∧ Unloaded h (arg1fGet pcmd.flags) pcmd.arg1) := by
    rintro (hu | hu)
    · exact hfed hu
    · exact hfed' ⟨hlook, hu.2⟩
  rw [failIf_false hnot, if_pos ht] at hrun
  have hexec := execute_ok hrun (by simpa [goto] using hpc)
  exact ⟨_, hexec.trans (by rw [← tick, goto_tick _ hpc]), hc.of_goto hto hq⟩

/-- A conditional jump that is not taken. -/
theorem leads_passed (hcode : prog[n]? = some pcmd) (hn : n + 1 < 2 ^ 31)
    (hp : ∀ c, At n P c → Reaches c.ram (arg0fGet pcmd.flags) pcmd.arg0 ∧
      ¬ Unloaded h (arg0fGet pcmd.flags) pcmd.arg0 ∧
      taken (.ofCode pcmd.cmd) (operand0 h c pcmd) = some false ∧ Q c.aside) :
    Leads (flatTurn h prog) (At n P) (At (n + 1) Q) := by
  refine leads_command hcode fun c hc => ?_
  obtain ⟨hfst, hfed, htaken, hq⟩ := hp c hc
  have hpc := inRam_reg hc.size (r := regPc) (by decide)
  obtain ⟨test, hcmd, ht, _⟩ : ∃ test, commands (.ofCode pcmd.cmd) h c pcmd =
      cmdJumpIf test h c pcmd ∧ test (operand0 h c pcmd) = false ∧ _ := commands_taken htaken
  have hrun := hcmd.trans (jumpIf_reaches (h := h) hpc hfst fun hyes => by simp [ht] at hyes)
  have hnot : ¬ (Unloaded h (arg0fGet pcmd.flags) pcmd.arg0 ∨
      test (operand0 h c pcmd) ∧ Unloaded h (arg1fGet pcmd.flags) pcmd.arg1) := by
    simp [hfed, ht]
  rw [failIf_false hnot, if_neg (by simp [ht])] at hrun
  exact ⟨_, execute_ok hrun hpc, hc.of_goto (toInt_succ hc.pc hn) hq⟩

end Commands

/-- A command the first operand of which is the cell `k`. -/
structure OnCell (op : Opcode) (k : Word) (pcmd : Command) : Prop where
  op : Opcode.ofCode pcmd.cmd = op
  mode : arg0fGet pcmd.flags = .ram
  arg : pcmd.arg0 = k

/-- A conditional jump on the cell `k` to the command `dst`. -/
structure Branches (op : Opcode) (k : Word) (dst : Nat) (pcmd : Command) : Prop
    extends OnCell op k pcmd where
  literal : arg1fGet pcmd.flags = .literal
  target : pcmd.arg1.toInt = dst

/-- A jump to the command `dst`. -/
structure JumpsTo (dst : Nat) (pcmd : Command) : Prop where
  op : Opcode.ofCode pcmd.cmd = .jmp
  literal : arg0fGet pcmd.flags = .literal
  target : pcmd.arg0.toInt = dst

section Loops

variable {h : Host} {prog : List Command} {n m dst : Nat} {P : Chip → Prop} {c : Chip}
  {pcmd : Command} {op : Opcode} {k : Word}

theorem OnCell.operand (ho : OnCell op k pcmd) : operand0 h c pcmd = cell c.ram k := by
  rw [operand0, ho.mode, ho.arg]
  rfl

theorem OnCell.reaches (ho : OnCell op k pcmd) (hk : InRam c.ram k) :
    Reaches c.ram (arg0fGet pcmd.flags) pcmd.arg0 := by
  rw [ho.mode, ho.arg]
  exact hk

theorem OnCell.loaded (ho : OnCell op k pcmd) :
    ¬ Unloaded h (arg0fGet pcmd.flags) pcmd.arg0 := by
  rw [ho.mode]
  exact fun hu => absurd hu.1 (by decide)

theorem inRam_aside : InRam c.aside.ram k ↔ InRam c.ram k := inRam_set _

theorem Branches.taken_leads (hb : Branches op k dst pcmd) (hk : k ≠ regPc)
    (hcode : prog[n]? = some pcmd) (hin : ∀ c, P c → InRam c.ram k)
    (hx : ∀ c, P c → taken op (cell c.ram k) = some true) :
    Leads (flatTurn h prog) (At n P) (At dst P) := by
  refine leads_taken hcode fun c hc => ?_
  have hcell := hx _ hc.holds
  have hcellIn := inRam_aside.mp (hin _ hc.holds)
  rw [cell_aside hk] at hcell
  have hdef : Defined (.ofCode pcmd.cmd) (operand0 h c pcmd) (operand1 h c pcmd) := by
    rw [hb.op]
    cases op <;> trivial
  have hfed : ¬ Unloaded h (arg1fGet pcmd.flags) pcmd.arg1 := by
    rw [hb.literal]
    exact fun hu => absurd hu.1 (by decide)
  refine ⟨⟨inRam_reg hc.size (by decide), hb.reaches hcellIn, fun _ => ?_, hdef⟩, hb.loaded,
    fun hs => hfed hs.2, ?_, ?_, hc.holds⟩
  · rw [hb.literal]
    trivial
  · rw [hb.op, hb.operand]
    exact hcell
  · rw [operand1, hb.literal]
    exact hb.target

theorem Branches.passed_leads (hb : Branches op k dst pcmd) (hk : k ≠ regPc)
    (hcode : prog[n]? = some pcmd) (hn : n + 1 < 2 ^ 31) (hin : ∀ c, P c → InRam c.ram k)
    (hx : ∀ c, P c → taken op (cell c.ram k) = some false) :
    Leads (flatTurn h prog) (At n P) (At (n + 1) P) := by
  refine leads_passed hcode hn fun c hc => ?_
  have hcell := hx _ hc.holds
  rw [cell_aside hk] at hcell
  refine ⟨hb.reaches (inRam_aside.mp (hin _ hc.holds)), hb.loaded, ?_, hc.holds⟩
  rw [hb.op, hb.operand]
  exact hcell

theorem JumpsTo.leads (hj : JumpsTo dst pcmd) (hcode : prog[n]? = some pcmd) :
    Leads (flatTurn h prog) (At n P) (At dst P) := by
  refine leads_jmp hcode hj.op fun c hc => ⟨?_, ?_, ?_, hc.holds⟩
  · rw [hj.literal]
    trivial
  · rw [hj.literal]
    exact fun hu => absurd hu.1 (by decide)
  · rw [operand0, hj.literal]
    exact hj.target

/-- A command on one cell. -/
theorem OnCell.leads {g : Word → Word} (hd : OnCell op k pcmd) (hk : k ≠ regPc)
    (hcode : prog[n]? = some pcmd) (hn : n + 1 < 2 ^ 31) (hf : table op = some fun x _ => g x)
    (hlook : ∀ x, looksAt op x = false) (hin : ∀ c, P c → InRam c.ram k) :
    Leads (flatTurn h prog) (At n P)
      (At (n + 1) fun c => ∃ d, P d ∧ c = d.assign k (g (cell d.ram k))) := by
  refine leads_data hcode hn (by rw [hd.op]; exact hf) fun c hc => ?_
  have hcell := inRam_aside.mp (hin _ hc.holds)
  rw [← hd.op] at hlook
  refine ⟨⟨inRam_reg hc.size (by decide), hd.reaches hcell, ?_, ?_⟩, ?_, k, hk, ?_, ?_⟩
  · simp [hlook]
  · rw [hd.op] at hlook ⊢
    cases op <;> trivial
  · rw [Starved, hlook]
    exact fun hs => absurd hs.1 (by decide)
  · rw [hd.mode, hd.arg]
    rfl
  · exact ⟨c.aside, hc.holds, by rw [hd.operand, cell_aside hk]⟩

/-- A loop with its test in front: a conditional jump out of it at `n`, the body behind it,
and at `m` a jump back to the test. An invariant that the body keeps, and a measure that it
makes smaller, bring every run through it, to where the jump leads and with its test met. -/
theorem while_loop (h : Host) (prog : List Command) (n m out : Nat) (op : Opcode) (k : Word)
    (test back : Command) (I : Chip → Prop) (size : Chip → Nat) (hn : n + 1 < 2 ^ 31)
    (hk : k ≠ regPc) (htest : prog[n]? = some test) (hbranch : Branches op k out test)
    (hback : prog[m]? = some back) (hjump : JumpsTo n back) (hop : op = .ift ∨ op = .iff)
    (hin : ∀ c, I c → InRam c.ram k)
    (hbody : ∀ i, Leads (flatTurn h prog)
      (At (n + 1) fun c => I c ∧ taken op (cell c.ram k) = some false ∧ size c = i)
      (At m fun c => I c ∧ size c < i)) :
    Leads (flatTurn h prog) (At n I)
      (At out fun c => I c ∧ taken op (cell c.ram k) = some true) := by
  have hround : ∀ i, Leads (flatTurn h prog)
      (fun c => At n I c ∧ taken op (cell c.aside.ram k) = some false ∧ size c.aside = i)
      fun c => At n I c ∧ size c.aside < i := by
    intro i
    have hpass := hbranch.passed_leads (h := h) (P := fun c =>
      I c ∧ taken op (cell c.ram k) = some false ∧ size c = i) hk htest hn
      (fun c hc => hin c hc.1) fun c hc => hc.2.1
    refine ((hpass.trans (hbody i)).trans (hjump.leads hback)).mono ?_ ?_
    · exact fun c hc => ⟨hc.1.running, hc.1.size, hc.1.pc, hc.1.holds, hc.2⟩
    · exact fun c hc => ⟨hc.mono fun _ hi => hi.1, hc.holds.2⟩
  refine (Leads.whileDo (fun c => size c.aside) hround).trans ?_
  refine (hbranch.taken_leads (P := fun c => I c ∧ taken op (cell c.ram k) = some true) hk htest
    (fun c hc => hin c hc.1) fun c hc => hc.2).mono ?_ fun _ hc => hc
  intro c hc
  refine ⟨hc.1.running, hc.1.size, hc.1.pc, hc.1.holds, ?_⟩
  have hnot := hc.2
  rcases hop with rfl | rfl <;> simpa [taken] using hnot

/-- `initr 40`, then `ift $1, 5`, `inc $0`, `dec $1` and `jmp 1`. -/
def transfer : List Command :=
  [⟨0, 0x30, 40, 0⟩, ⟨1, 0x21, 1, 5⟩, ⟨1, 0x02, 0, 0⟩, ⟨1, 0x03, 1, 0⟩, ⟨0, 0x20, 1, 0⟩]

/-- Forty cells, the first two of which are seven together. -/
def SevenTogether (c : Chip) : Prop := c.ram.length = 40 ∧ cell c.ram 0 + cell c.ram 1 = 7

theorem sevenTogether_inRam {r : Word} (hr : r.toNat < 36) (hc : SevenTogether c) :
    InRam c.ram r := inRam_reg (by rw [hc.1]; decide) hr

theorem transfer_body (i : Nat) : Leads (flatTurn emptyHost transfer)
    (At 2 fun c => SevenTogether c ∧ taken .ift (cell c.ram 1) = some false ∧
      (cell c.ram 1).toNat = i)
    (At 4 fun c => SevenTogether c ∧ (cell c.ram 1).toNat < i) := by
  obtain ⟨P, hP⟩ : ∃ P : Chip → Prop, P = fun c => SevenTogether c ∧
    taken .ift (cell c.ram 1) = some false ∧ (cell c.ram 1).toNat = i := ⟨_, rfl⟩
  have hsize : ∀ c, P c → ∀ r : Word, r.toNat < 36 → InRam c.ram r := fun c hc r hr =>
    sevenTogether_inRam hr (hP ▸ hc : _ ∧ _).1
  have hinc : Leads (flatTurn emptyHost transfer) (At 2 P)
      (At 3 fun c => ∃ d, P d ∧ c = d.assign 0 (cell d.ram 0 + 1)) :=
    OnCell.leads (g := fun x => x + 1) ⟨rfl, rfl, rfl⟩ (by decide)
      (show transfer[2]? = some ⟨1, 0x02, 0, 0⟩ from rfl) (by decide) rfl (fun _ => rfl)
      fun c hc => hsize c hc 0 (by decide)
  have hdec : Leads (flatTurn emptyHost transfer)
      (At 3 fun c => ∃ d, P d ∧ c = d.assign 0 (cell d.ram 0 + 1))
      (At 4 fun c => ∃ e, (∃ d, P d ∧ e = d.assign 0 (cell d.ram 0 + 1)) ∧
        c = e.assign 1 (cell e.ram 1 - 1)) :=
    OnCell.leads (g := fun x => x - 1) ⟨rfl, rfl, rfl⟩ (by decide)
      (show transfer[3]? = some ⟨1, 0x03, 1, 0⟩ from rfl) (by decide) rfl (fun _ => rfl) (by
        rintro _ ⟨d, hd, rfl⟩
        exact (inRam_set _).mpr (hsize d hd 1 (by decide)))
  refine (hinc.trans hdec).mono (fun c hc => hP ▸ hc) fun c hc => hc.mono ?_
  rintro _ ⟨_, ⟨d, hd, rfl⟩, rfl⟩
  have hone := hsize d hd 1 (by decide)
  have hzero := hsize d hd 0 (by decide)
  rw [hP] at hd
  obtain ⟨⟨hlen, hsum⟩, hne, hi⟩ := hd
  obtain ⟨e, he⟩ : ∃ e, e = d.assign 0 (cell d.ram 0 + 1) := ⟨_, rfl⟩
  have hone' : cell e.ram 1 = cell d.ram 1 := he ▸ cell_set_ne (by decide)
  have hzero' : cell e.ram 0 = cell d.ram 0 + 1 := he ▸ cell_set_self hzero
  have hin : InRam e.ram 1 := he ▸ (inRam_set _).mpr hone
  have hless : cell (e.assign 1 (cell e.ram 1 - 1)).ram 1 = cell e.ram 1 - 1 := cell_set_self hin
  have hkept : cell (e.assign 1 (cell e.ram 1 - 1)).ram 0 = cell e.ram 0 :=
    cell_set_ne (by decide)
  rw [← he]
  refine ⟨⟨?_, ?_⟩, ?_⟩
  · rw [Chip.assign, List.length_set, he, Chip.assign, List.length_set, hlen]
  · rw [hless, hkept, hone', hzero', ← hsum]
    bv_omega
  · rw [hless, hone', ← hi]
    have hpos : cell d.ram 1 ≠ 0 := by simpa [taken] using hne
    bv_omega

theorem while_loop_transfer : Leads (flatTurn emptyHost transfer) (At 1 SevenTogether)
    (At 5 fun c => SevenTogether c ∧ taken .ift (cell c.ram 1) = some true) :=
  while_loop emptyHost transfer 1 4 5 .ift 1 _ _ SevenTogether (fun c => (cell c.ram 1).toNat)
    (by decide) (by decide) rfl ⟨⟨rfl, rfl, rfl⟩, rfl, rfl⟩ rfl ⟨rfl, rfl, rfl⟩ (.inl rfl)
    (fun _ hc => sevenTogether_inRam (by decide) hc) transfer_body

/-- How often the body of a loop is entered that ends with `dec $k` and `iff $k`, which go
back until the cell is 0. -/
def rounds (v : Word) : Nat := if v = 0 then 2 ^ 32 else v.toNat

theorem rounds_pos (v : Word) : 0 < rounds v := by
  rw [rounds]
  split
  · decide
  · next hv => exact Nat.pos_of_ne_zero fun hz => hv (BitVec.eq_of_toNat_eq hz)

/-- The counter is 0 after the last round and after no other. -/
theorem counted_iff {v : Word} {i : Nat} (hi : i < rounds v) :
    v - BitVec.ofNat 32 (i + 1) = 0 ↔ i + 1 = rounds v := by
  have hv := v.isLt
  have hzero : v = 0 ↔ v.toNat = 0 := ⟨fun hz => hz ▸ rfl, fun hz => BitVec.eq_of_toNat_eq hz⟩
  rw [← BitVec.toNat_inj, BitVec.toNat_sub, BitVec.toNat_ofNat]
  change _ = 0 ↔ _
  rw [rounds] at hi ⊢
  split at hi
  · next hz =>
    rw [if_pos hz, hzero.mp hz]
    omega
  · next hz =>
    rw [if_neg hz]
    rw [hzero] at hz
    omega

theorem count_succ (v : Word) (i : Nat) :
    v - BitVec.ofNat 32 i - 1 = v - BitVec.ofNat 32 (i + 1) := by
  have hone : (1 : Word).toNat = 1 := rfl
  refine BitVec.eq_of_toNat_eq ?_
  simp only [BitVec.toNat_sub, BitVec.toNat_ofNat, hone]
  omega

/-- A loop that a cell counts: the body, `dec $k` at `m` and behind it `iff $k` back to the
body at `n`. It is run as often as the cell says when it is entered, and `2^32` times for 0;
`I i` is what holds after `i` rounds. -/
theorem count_loop (h : Host) (prog : List Command) (n m : Nat) (k v : Word)
    (less back : Command) (I : Nat → Chip → Prop) (hm : m + 2 < 2 ^ 31) (hk : k ≠ regPc)
    (hless : prog[m]? = some less) (hdec : OnCell .dec k less)
    (hback : prog[m + 1]? = some back) (hbranch : Branches .iff k n back)
    (hin : ∀ i c, I i c → InRam c.ram k) (hfree : ∀ i c w, I i c → I i (c.assign k w))
    (hbody : ∀ i < rounds v, Leads (flatTurn h prog)
      (At n fun c => I i c ∧ cell c.ram k = v - BitVec.ofNat 32 i)
      (At m fun c => I (i + 1) c ∧ cell c.ram k = v - BitVec.ofNat 32 i)) :
    Leads (flatTurn h prog) (At n fun c => I 0 c ∧ cell c.ram k = v)
      (At (m + 2) fun c => I (rounds v) c ∧ cell c.ram k = 0) := by
  have hround : ∀ i < rounds v, Leads (flatTurn h prog)
      (At n fun c => I i c ∧ cell c.ram k = v - BitVec.ofNat 32 i)
      (At (m + 1) fun c => I (i + 1) c ∧ cell c.ram k = v - BitVec.ofNat 32 (i + 1)) := by
    intro i hi
    have hone := hdec.leads (h := h) (g := fun x => x - 1) hk hless (by omega) rfl (fun _ => rfl)
      fun c (hc : I (i + 1) c ∧ cell c.ram k = v - BitVec.ofNat 32 i) => hin _ c hc.1
    refine (hbody i hi).trans (hone.mono (fun _ hc => hc) fun c hc => hc.mono ?_)
    rintro d ⟨e, ⟨he, hcell⟩, rfl⟩
    refine ⟨hfree _ _ _ he, ?_⟩
    rw [Chip.assign, cell_set_self (hin _ e he), hcell, count_succ]
  obtain ⟨r, hr⟩ : ∃ r, rounds v = r + 1 := ⟨rounds v - 1, by have := rounds_pos v; omega⟩
  have hmost : Leads (flatTurn h prog)
      (At n fun c => I 0 c ∧ cell c.ram k = v - BitVec.ofNat 32 0)
      (At n fun c => I r c ∧ cell c.ram k = v - BitVec.ofNat 32 r) := by
    refine Leads.rounds (I := fun i => At n fun c => I i c ∧ cell c.ram k = v - BitVec.ofNat 32 i)
      fun i hi => (hround i (by omega)).trans (hbranch.taken_leads hk hback
        (fun c hc => hin _ c hc.1) fun c hc => ?_)
    have hne : ¬ v - BitVec.ofNat 32 (i + 1) = 0 := by
      rw [counted_iff (by omega)]
      omega
    rw [← hc.2] at hne
    exact congrArg some (decide_eq_true hne)
  have hlast := (hround r (by omega)).trans (hbranch.passed_leads hk hback (by omega)
    (fun c hc => hin _ c hc.1) fun c hc => by
      have hzero := (counted_iff (v := v) (i := r) (by omega)).mpr hr.symm
      rw [← hc.2] at hzero
      exact congrArg some (decide_eq_false fun hne => hne hzero))
  refine (hmost.trans hlast).mono (fun c hc => hc.mono ?_) fun c hc => hc.mono ?_
  · rintro d ⟨hd, hcell⟩
    exact ⟨hd, hcell.trans (BitVec.sub_zero v).symm⟩
  · rintro d ⟨hd, hcell⟩
    rw [hr]
    exact ⟨hd, hcell.trans ((counted_iff (by omega)).mpr hr.symm)⟩

/-- `initr 40`, then `inc $0`, `dec $1` and `iff $1, 1`. -/
def countUp : List Command :=
  [⟨0, 0x30, 40, 0⟩, ⟨1, 0x02, 0, 0⟩, ⟨1, 0x03, 1, 0⟩, ⟨1, 0x22, 1, 1⟩]

/-- Forty cells, the first of which has the number of rounds. -/
def Counted (i : Nat) (c : Chip) : Prop := c.ram.length = 40 ∧ cell c.ram 0 = BitVec.ofNat 32 i

theorem countUp_body (v : Word) (i : Nat) : Leads (flatTurn emptyHost countUp)
    (At 1 fun c => Counted i c ∧ cell c.ram 1 = v - BitVec.ofNat 32 i)
    (At 2 fun c => Counted (i + 1) c ∧ cell c.ram 1 = v - BitVec.ofNat 32 i) := by
  have hsize : ∀ c, Counted i c → InRam c.ram 0 := fun c hc =>
    inRam_reg (by rw [hc.1]; decide) (by decide)
  have hinc : Leads (flatTurn emptyHost countUp)
      (At 1 fun c => Counted i c ∧ cell c.ram 1 = v - BitVec.ofNat 32 i)
      (At 2 fun c => ∃ d, (Counted i d ∧ cell d.ram 1 = v - BitVec.ofNat 32 i) ∧
        c = d.assign 0 (cell d.ram 0 + 1)) :=
    OnCell.leads (g := fun x => x + 1) ⟨rfl, rfl, rfl⟩ (by decide)
      (show countUp[1]? = some ⟨1, 0x02, 0, 0⟩ from rfl) (by decide) rfl (fun _ => rfl)
      fun c hc => hsize c hc.1
  refine hinc.mono (fun _ hc => hc) fun c hc => hc.mono ?_
  rintro _ ⟨d, ⟨hd, hcount⟩, rfl⟩
  have hin := hsize d hd
  obtain ⟨hlen, hcell⟩ := hd
  refine ⟨⟨(List.length_set ..).trans hlen, (cell_set_self hin).trans ?_⟩,
    (cell_set_ne (by decide)).trans hcount⟩
  rw [hcell, BitVec.ofNat_add]
  rfl

theorem count_loop_up : Leads (flatTurn emptyHost countUp)
    (At 1 fun c => Counted 0 c ∧ cell c.ram 1 = 5)
    (At 4 fun c => Counted (rounds 5) c ∧ cell c.ram 1 = 0) :=
  count_loop emptyHost countUp 1 2 1 5 _ _ Counted (by decide) (by decide) rfl ⟨rfl, rfl, rfl⟩ rfl
    ⟨⟨rfl, rfl, rfl⟩, rfl, rfl⟩ (fun _ _ hc => inRam_reg (by rw [hc.1]; decide) (by decide))
    (fun _ _ _ hc => ⟨(List.length_set ..).trans hc.1, (cell_set_ne (by decide)).trans hc.2⟩)
    fun i _ => countUp_body 5 i

end Loops

section WholeRuns

variable {h : Host} {prog buf : List Command} {k : Nat} {c d : Chip}

/-- Where the flat machine goes on it is inside the program. -/
theorem flatTurn_within (hbuf : buf.length < 2 ^ 32) (hfit : prog.length < buf.length)
    (ht : flatTurn h prog c = .ok (.next d)) : Within c buf.length := by
  obtain ⟨pcmd, _, hf, _⟩ := flatTurn_next ht
  obtain ⟨hlt, _⟩ := List.getElem?_eq_some_iff.mp (show prog[pcIndex c]? = some pcmd from hf)
  have hnn : 0 ≤ (cell c.ram regPc).toInt := nonneg_of_index (r := cell c.ram regPc) (by
    rw [pcIndex] at hlt
    omega)
  have hnat := toNat_of_nonneg hnn
  rw [pcIndex, signExtend_toNat hnn] at hlt
  exact ⟨hnn, by omega⟩

theorem At.within {P : Chip → Prop} {n : Nat} (ha : At n P c) (hn : n < buf.length) :
    Within c buf.length := by
  have hpc := ha.pc
  exact ⟨by omega, by omega⟩

/-- The flat machine stops at the end of the program. -/
theorem At.stops {P : Chip → Prop} (ha : At prog.length P c) :
    flatTurn h prog c = .ok (.stop c) := by
  have hidx : ((cell c.ram regPc).signExtend 64).toNat = prog.length := ha.index
  simp [flatTurn, ha.running, load_ok (inRam_reg ha.size (r := regPc) (by decide)), hidx]

theorem initRam_registers {size : Word} {words : Nat → Word} (hsize : 36 ≤ size.toNat) :
    36 ≤ (initRam size words).length ∧ cell (initRam size words) regPc = 1 := by
  have hlen : (initRam size words).length = size.toNat := by simp [initRam]
  refine ⟨hlen ▸ hsize, ?_⟩
  rw [initRam, cell_set_ne (by decide), cell_set_ne (by decide)]
  refine cell_set_self (inRam_of_lt ?_ (by decide))
  rw [List.length_map, List.length_range]
  exact Nat.lt_of_lt_of_le (by decide) hsize

/-- A program that the rules bring from its start to its end is brought there by
`chip32_run`, which then returns 0. -/
theorem verified_run (prog buf : List Command) (malloc : Word → Option (Nat → Word))
    (un : Unspecified) (words : Nat → Word) (first : Command) (Q : Chip → Prop)
    (hbuf : buf.length < 2 ^ 32) (hfit : prog.length < buf.length) (hprog : Runnable prog)
    (hfirst : prog.head? = some first) (hm : malloc first.arg0 = some words)
    (hsize : 36 ≤ first.arg0.toNat)
    (hlead : Leads (flatTurn (ObjectFile.host (commandsSave prog) malloc un) prog)
      (At 1 fun c => c = Chip.aside { Chip.new [] with
        ramsize := first.arg0, ram := initRam first.arg0 words })
      (At prog.length Q)) :
    ∃ k c, run (ObjectFile.host (commandsSave prog) malloc un) (Chip.new buf) k =
        .ok (.stop (onPage prog buf c)) ∧
      returned (onPage prog buf c) = 0 ∧ At prog.length Q c := by
  obtain ⟨rest, rfl⟩ : ∃ rest, prog = first :: rest := by
    cases prog with
    | nil => cases hfirst
    | cons pcmd rest =>
      cases hfirst
      exact ⟨rest, rfl⟩
  obtain ⟨host, hhost⟩ : ∃ host, host = ObjectFile.host (commandsSave (first :: rest)) malloc un :=
    ⟨_, rfl⟩
  obtain ⟨c, hc⟩ : ∃ c, c = { Chip.new [] with
    ramsize := first.arg0, ram := initRam first.arg0 words } := ⟨_, rfl⟩
  have hstart : flatStart host (first :: rest) = .ok (.next c) := by
    have hinit : cmdInitr host (Chip.new []) first = .ok (c, first) := by
      rw [hhost, hc]
      exact initr_ok first rfl hm (by omega)
    simp only [flatStart, hinit, Runs.ok_bind, hc]
    rfl
  have hat : At 1 (fun c' => c' = c.aside) c := ⟨hc ▸ rfl, hc ▸ (initRam_registers hsize).1,
    hc ▸ congrArg BitVec.toInt (initRam_registers hsize).2, rfl⟩
  rw [← hhost, ← hc] at hlead
  obtain ⟨j, d, hj, hd⟩ := hlead c hat
  have hend : Runs.iterate (flatTurn host (first :: rest)) (j + 1) c = .ok (.stop d) :=
    (Runs.iterate_succ_last _ hj).trans hd.stops
  have hflat : ∀ i, flatRun host (first :: rest) i =
      Runs.iterate (flatTurn host (first :: rest)) i c := by
    intro i
    simp only [flatRun, hstart, Runs.ok_bind]
  refine ⟨j + 1, d, ?_, ?_, hd⟩
  · have hrun := run_onPage (k := j + 1) ⟨by omega, hbuf⟩ malloc un hprog fun i hi e he => ?_
    · rw [hrun, ← hhost, hflat, hend]
      rfl
    · rw [← hhost, hflat] at he
      by_cases hij : i = j
      · subst hij
        cases he.symm.trans hj
        exact hd.within hfit
      · have hon : ∃ u, Runs.iterate (flatTurn host (first :: rest)) (i + 1) c = .ok (.next u) := by
          by_contra hnone
          have hsame := Runs.iterate_ended _ (m := j) rfl (fun u hu => hnone ⟨u, hu⟩)
            (show i + 1 ≤ j by omega)
          exact hnone ⟨d, hsame ▸ hj⟩
        obtain ⟨u, hu⟩ := hon
        rw [Runs.iterate_succ_last _ he] at hu
        exact flatTurn_within hbuf hfit hu
  · have hstate : (onPage (first :: rest) buf d).chip.state = .running := hd.running
    rw [returned, hstate]
    rfl

/-- `initr 40` and `inc $0`. -/
def oneMore : List Command := [⟨0, 0x30, 40, 0⟩, ⟨1, 0x02, 0, 0⟩]

def sixes (_ : Nat) : Word := 6

theorem verified_run_seven : ∃ k c,
    run (ObjectFile.host (commandsSave oneMore) (fun _ => some sixes) ⟨⟨0, 0, 0, 0⟩, true⟩)
        (Chip.new (List.replicate 4 ⟨0, 0, 0, 0⟩)) k =
      .ok (.stop (onPage oneMore (List.replicate 4 ⟨0, 0, 0, 0⟩) c)) ∧
    returned (onPage oneMore (List.replicate 4 ⟨0, 0, 0, 0⟩) c) = 0 ∧
    At 2 (fun d => cell d.ram 0 = 7) c := by
  refine verified_run oneMore (List.replicate 4 ⟨0, 0, 0, 0⟩) (fun _ => some sixes) ⟨⟨0, 0, 0, 0⟩, true⟩
    sixes ⟨0, 0x30, 40, 0⟩ (fun d => cell d.ram 0 = 7) (by decide) (by decide)
    ⟨rfl, by decide⟩ rfl rfl (by decide) ?_
  refine (OnCell.leads (g := fun x => x + 1) ⟨rfl, rfl, rfl⟩ (by decide)
    (show oneMore[1]? = some ⟨1, 0x02, 0, 0⟩ from rfl) (by decide) rfl (fun _ => rfl)
    (by rintro c rfl; decide)).mono (fun _ hc => hc) fun c hc => hc.mono ?_
  rintro _ ⟨d, rfl, rfl⟩
  decide

end WholeRuns

end Vm
