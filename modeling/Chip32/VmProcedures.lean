import Chip32.VmForward

/-!
# Procedures

The rule for procedures that call themselves and one another. A procedure has a contract:
what holds of the data where it is called and what holds of them behind the call, and how
much of the stack it takes. A body that keeps its contract as long as the calls in it keep
theirs, and makes them with something smaller, keeps it from wherever it is called, and
leaves the stack and its registers as they were.
-/
namespace Vm

open Runs (Leads)

/-- Machines that differ in nothing but the registers and the cells from `limit` on. -/
structure SameData (limit : Nat) (c d : Chip) : Prop where
  other : ∃ ram, d = { c with ram := ram }
  length : d.ram.length = c.ram.length
  cells : ∀ x : Word, x.toNat < limit → x ≠ regPc → x ≠ regStk → x ≠ regFrm →
    cell d.ram x = cell c.ram x

/-- Said of the data alone. -/
def OnData (limit : Nat) (P : Chip → Prop) : Prop := ∀ c d, SameData limit c d → P c → P d

/-- With the stack `a`, and with `s` in STK and `f` in FRM. -/
structure Framed (a : CallStack) (s f : Word) (P : Chip → Prop) (c : Chip) : Prop where
  stack : Represents c.ram a
  stk : cell c.ram regStk = s
  frm : cell c.ram regFrm = f
  holds : P c

/-- A call of the command `dst`. -/
structure CallsTo (dst : Nat) (pcmd : Command) : Prop where
  op : Opcode.ofCode pcmd.cmd = .call
  literal : arg0fGet pcmd.flags = .literal
  target : pcmd.arg0.toInt = dst

section Commands

variable {h : Host} {prog : List Command} {limit n m dst : Nat} {P Q : Chip → Prop} {c d : Chip}
  {a : CallStack} {s f v : Word} {pcmd q : Command} {o : OpenCall} {os : List OpenCall}

theorem pushWord_same (he : pushWord c v = .ok d) : ∃ ram, d = { c with ram := ram } := by
  obtain ⟨_, _, he⟩ := Runs.bind_eq_ok.mp he
  obtain ⟨e, hst, he⟩ := Runs.bind_eq_ok.mp he
  obtain ⟨_, rfl⟩ := store_eq_ok.mp hst
  obtain ⟨_, rfl⟩ := store_eq_ok.mp he
  exact ⟨_, rfl⟩

theorem popWord_same (he : popWord c = .ok (v, d)) : ∃ ram, d = { c with ram := ram } := by
  obtain ⟨_, _, he⟩ := Runs.bind_eq_ok.mp he
  obtain ⟨e, hst, he⟩ := Runs.bind_eq_ok.mp he
  obtain ⟨_, rfl⟩ := store_eq_ok.mp hst
  obtain ⟨_, _, he⟩ := Runs.bind_eq_ok.mp he
  cases he
  exact ⟨_, rfl⟩

theorem cmdCall_same (hlit : arg0fGet pcmd.flags = .literal)
    (he : cmdCall h c pcmd = .ok (d, q)) :
    (∃ ram, d = { c with ram := ram }) ∧ cell d.ram regPc = pcmd.arg0 - 1 := by
  obtain ⟨x, hget, he⟩ := Runs.bind_eq_ok.mp he
  rw [hlit] at hget
  cases hget
  obtain ⟨_, _, he⟩ := Runs.bind_eq_ok.mp he
  obtain ⟨c₁, hpush, he⟩ := Runs.bind_eq_ok.mp he
  obtain ⟨_, rfl⟩ := pushWord_same hpush
  obtain ⟨_, _, he⟩ := Runs.bind_eq_ok.mp he
  obtain ⟨c₂, hpush, he⟩ := Runs.bind_eq_ok.mp he
  obtain ⟨_, rfl⟩ := pushWord_same hpush
  obtain ⟨_, _, he⟩ := Runs.bind_eq_ok.mp he
  obtain ⟨c₃, hst, he⟩ := Runs.bind_eq_ok.mp he
  obtain ⟨_, rfl⟩ := store_eq_ok.mp hst
  obtain ⟨c₄, hst, he⟩ := Runs.bind_eq_ok.mp he
  obtain ⟨hin, rfl⟩ := store_eq_ok.mp hst
  cases he
  exact ⟨⟨_, rfl⟩, cell_set_self hin⟩

theorem cmdRet_same (he : cmdRet h c pcmd = .ok (d, q)) : ∃ ram, d = { c with ram := ram } := by
  obtain ⟨_, _, he⟩ := Runs.bind_eq_ok.mp he
  obtain ⟨c₁, hst, he⟩ := Runs.bind_eq_ok.mp he
  obtain ⟨_, rfl⟩ := store_eq_ok.mp hst
  obtain ⟨⟨_, c₂⟩, hpop, he⟩ := Runs.bind_eq_ok.mp he
  obtain ⟨_, rfl⟩ := popWord_same hpop
  obtain ⟨c₃, hst, he⟩ := Runs.bind_eq_ok.mp he
  obtain ⟨_, rfl⟩ := store_eq_ok.mp hst
  obtain ⟨⟨_, c₄⟩, hpop, he⟩ := Runs.bind_eq_ok.mp he
  obtain ⟨_, rfl⟩ := popWord_same hpop
  obtain ⟨c₅, hst, he⟩ := Runs.bind_eq_ok.mp he
  obtain ⟨_, rfl⟩ := store_eq_ok.mp hst
  cases he
  exact ⟨_, rfl⟩

/-- The PC is no part of the stack. -/
theorem represents_aside : Represents c.aside.ram a ↔ Represents c.ram a := by
  have hlen : c.aside.ram.length = c.ram.length := List.length_set ..
  have hstk : cell c.aside.ram regStk = cell c.ram regStk := cell_aside (by decide)
  have hfrm : cell c.aside.ram regFrm = cell c.ram regFrm := cell_aside (by decide)
  have hkeep : ∀ x : Word, 34 < x.toNat → cell c.aside.ram x = cell c.ram x := fun x hx =>
    cell_aside (ne_of_toNat (by rw [reg_toNat.1]; omega))
  constructor
  · intro hr
    have hfloor := hr.floor
    exact hr.keep hlen.symm hstk.symm hfrm.symm fun x hx => (hkeep x (by omega)).symm
  · intro hr
    have hfloor := hr.floor
    exact hr.keep hlen hstk hfrm fun x hx => hkeep x (by omega)

/-- A data cell under the stack. -/
theorem Framed.assign {k : Word} (hf : Framed a s f P c) (hk : k.toNat ≤ s.toNat)
    (hstk : k ≠ regStk) (hfrm : k ≠ regFrm) (hq : Q (c.assign k v)) :
    Framed a s f Q (c.assign k v) where
  stack := by
    refine hf.stack.keep (List.length_set ..) (cell_set_ne hstk) (cell_set_ne hfrm) fun x hx => ?_
    rw [hf.stk] at hx
    exact cell_set_ne (ne_of_toNat (by omega))
  stk := (cell_set_ne hstk).trans hf.stk
  frm := (cell_set_ne hfrm).trans hf.frm
  holds := hq

/-- Data are what a command does not write of them. -/
theorem sameData_aside (hram : c.ram ≠ []) (he : execute h c pcmd = .ok (d, q))
    (hother : ∃ ram, d = { c with ram := ram })
    (hw : ∀ x ∈ writes h c pcmd, x = regPc ∨ x = regStk ∨ x = regFrm ∨ limit ≤ x.toNat) :
    SameData limit c.aside d.aside := by
  obtain ⟨hlen, hkept⟩ := execute_kept hram he
  obtain ⟨ram, rfl⟩ := hother
  refine ⟨⟨_, rfl⟩, ?_, fun x hx hpc hstk hfrm => ?_⟩
  · simp only [Chip.aside, goto, List.length_set]
    exact hlen
  · rw [cell_aside hpc, cell_aside hpc]
    refine hkept x fun hmem => ?_
    rcases hw x hmem with he | he | he | he
    · exact hpc he
    · exact hstk he
    · exact hfrm he
    · omega

theorem Framed.of_aside (hf : Framed a s f P c.aside) :
    Represents c.ram a ∧ cell c.ram regStk = s ∧ cell c.ram regFrm = f :=
  ⟨represents_aside.mp hf.stack, (cell_aside (by decide)).symm.trans hf.stk,
    (cell_aside (by decide)).symm.trans hf.frm⟩

theorem word_of_toInt (hv : v.toInt = n) : v = .ofNat 32 n := by
  have hnat := toNat_of_nonneg (r := v) (by omega)
  refine BitVec.eq_of_toNat_eq ?_
  rw [BitVec.toNat_ofNat]
  omega

/-- The registers of a call just made. -/
theorem Represents.called {ram ram' : List Word} {calls : List OpenCall}
    (hr : Represents ram a) (hr' : Represents ram' ⟨[], o :: calls⟩) (hlen : ram'.length = ram.length)
    (hwords : o.words = a.words) (hcalls : calls = a.calls) :
    cell ram' regStk = cell ram regStk - 2 ∧ cell ram' regFrm = cell ram regStk - 2 := by
  have hl := hr.length
  have hl' := hr'.length
  have hf := hr'.words_length
  have htwo : (2 : Word).toNat = 2 := rfl
  simp only [region, List.nil_append, List.length_cons, List.length_nil, hwords, hcalls] at hl' hf
  have hstk := (cell ram regStk).isLt
  have hsub : (cell ram regStk - 2).toNat = (cell ram' regStk).toNat := by
    rw [BitVec.toNat_sub, htwo]
    omega
  exact ⟨(BitVec.eq_of_toNat_eq hsub).symm,
    (BitVec.eq_of_toNat_eq (hsub.trans (by omega))).symm⟩

/-- A call leaves the data alone where the stack has room for two words. -/
theorem leads_call (hcode : prog[n]? = some pcmd) (hcall : CallsTo dst pcmd)
    (hp : OnData limit P) (hlimit : 35 ≤ limit) (hroom : limit + 2 ≤ s.toNat + 1)
    (hs : s.toNat < 2 ^ 31) :
    Leads (flatTurn h prog) (At n (Framed a s f P))
      (At dst (Framed ⟨[], ⟨.ofNat 32 n, s, f, a.words⟩ :: a.calls⟩ (s - 2) (s - 2) P)) := by
  refine leads_command hcode fun c hc => ?_
  obtain ⟨hr, hstk, hfrm⟩ := hc.holds.of_aside
  have hsint : (cell c.ram regStk).toInt = s.toNat := by
    rw [hstk, BitVec.toInt_eq_toNat_of_lt (by omega)]
  obtain ⟨d, hexec, hrep⟩ := call_step (h := h) hr (.inl hcall.literal) (by omega) hcall.op
  rw [word_of_toInt hc.pc, hstk, hfrm] at hrep
  obtain ⟨e, hcmd, hother, htick⟩ := execute_tick hexec
  rw [hcall.op] at hcmd
  obtain ⟨⟨_, rfl⟩, hto⟩ := cmdCall_same hcall.literal hcmd
  have hother' : ∃ ram, d = { c with ram := ram } := hother
  have hram : c.ram ≠ [] := List.ne_nil_of_length_pos (Nat.lt_of_lt_of_le (by decide) hc.size)
  have hlen := (execute_kept hram hexec).1
  obtain ⟨hstk', hfrm'⟩ := hr.called hrep hlen rfl rfl
  rw [hstk] at hstk' hfrm'
  have hpc' : cell d.ram regPc = pcmd.arg0 := by
    rw [htick, hto, BitVec.sub_add_cancel]
  have hsame : SameData limit c.aside d.aside := by
    refine sameData_aside hram hexec hother' fun x hx => ?_
    have hone : (1 : Word).toNat = 1 := rfl
    have hpush : cell (pushed c.ram (cell c.ram regPc)) regStk = s - 1 := by
      rw [pushed, cell_set_ne (ne_of_toNat (by rw [hstk, reg_toNat.2.1]; omega)),
        cell_set_self hr.inRam_reg.2.1, hstk]
    have hsub : (s - 1).toNat + 1 = s.toNat := by
      rw [BitVec.toNat_sub, hone]
      omega
    simp only [writes, hcall.op, List.mem_cons, List.not_mem_nil, or_false, hpush, hstk] at hx
    rcases hx with rfl | rfl | rfl | rfl | rfl
    · exact .inl rfl
    · exact .inr (.inl rfl)
    · exact .inr (.inr (.inr (by omega)))
    · exact .inr (.inr (.inr (by omega)))
    · exact .inr (.inr (.inl rfl))
  refine ⟨d, hexec, ?_⟩
  obtain ⟨ram, rfl⟩ := hother'
  refine ⟨hc.running, hlen ▸ hc.size, hpc' ▸ hcall.target, represents_aside.mpr hrep, ?_, ?_,
    hp _ _ hsame hc.holds.holds⟩
  · exact (cell_aside (by decide)).trans hstk'
  · exact (cell_aside (by decide)).trans hfrm'

/-- A return goes behind the call, whatever words are left on the stack. -/
theorem leads_ret (hcode : prog[m]? = some pcmd) (hop : Opcode.ofCode pcmd.cmd = .ret)
    (hq : OnData limit Q) (hn : n + 1 < 2 ^ 31) (ho : o.pc.toInt = n) :
    Leads (flatTurn h prog) (At m fun c => (∃ ws, Represents c.ram ⟨ws, o :: os⟩) ∧ Q c)
      (At (n + 1) (Framed ⟨o.words, os⟩ o.stk o.frm Q)) := by
  refine leads_command hcode fun c hc => ?_
  obtain ⟨⟨ws, hws⟩, hholds⟩ := hc.holds
  have hr := represents_aside.mp hws
  obtain ⟨d, hexec, hrep, hstk, hfrm, hpc⟩ := ret_step (h := h) hr rfl hop
  obtain ⟨e, hcmd, hother, _⟩ := execute_tick hexec
  rw [hop] at hcmd
  obtain ⟨_, rfl⟩ := cmdRet_same (h := h) hcmd
  have hother' : ∃ ram, d = { c with ram := ram } := hother
  have hram : c.ram ≠ [] := List.ne_nil_of_length_pos (Nat.lt_of_lt_of_le (by decide) hc.size)
  have hlen := (execute_kept hram hexec).1
  have hsame : SameData limit c.aside d.aside := by
    refine sameData_aside hram hexec hother' fun x hx => ?_
    simp only [writes, hop, List.mem_cons, List.not_mem_nil, or_false] at hx
    exact hx.imp_right (Or.imp_right .inl)
  refine ⟨d, hexec, ?_⟩
  obtain ⟨ram, rfl⟩ := hother'
  refine ⟨hc.running, hlen ▸ hc.size, hpc ▸ toInt_succ ho hn, represents_aside.mpr hrep, ?_, ?_,
    hq _ _ hsame hholds⟩
  · exact (cell_aside (by decide)).trans hstk
  · exact (cell_aside (by decide)).trans hfrm

end Commands

/-- What procedures promise, each for some arguments: where it is entered and where it
returns, the cells of stack it takes, and what holds of the data before and behind. -/
structure Contract (ι : Type) where
  entry : ι → Nat
  leave : ι → Nat
  room : ι → Nat
  pre : ι → Chip → Prop
  post : ι → Chip → Prop

section Contracts

variable {ι : Type}

/-- Every call with the arguments `i` and room for it comes back, with the stack and its
registers as they were. -/
def Contract.Kept (C : Contract ι) (h : Host) (prog : List Command) (limit : Nat) (i : ι) : Prop :=
  ∀ n pcmd a s f, prog[n]? = some pcmd → CallsTo (C.entry i) pcmd → s.toNat < 2 ^ 31 →
    limit + C.room i ≤ s.toNat + 1 →
    Leads (flatTurn h prog) (At n (Framed a s f (C.pre i))) (At (n + 1) (Framed a s f (C.post i)))

/-- The body, from where it is entered to its return. -/
def Contract.Body (C : Contract ι) (h : Host) (prog : List Command) (limit : Nat) (i : ι) : Prop :=
  ∀ o os s, s.toNat < 2 ^ 31 → limit + C.room i ≤ s.toNat + 3 →
    Leads (flatTurn h prog) (At (C.entry i) (Framed ⟨[], o :: os⟩ s s (C.pre i)))
      (At (C.leave i) fun c => (∃ ws, Represents c.ram ⟨ws, o :: os⟩) ∧ C.post i c)

/-- Procedures that call one another keep their contracts when their bodies do so with the
contracts for something smaller. -/
theorem procedures (h : Host) (prog : List Command) (limit : Nat) (C : Contract ι)
    (size : ι → Nat) (hprog : prog.length < 2 ^ 31) (hlimit : 35 ≤ limit)
    (hroom : ∀ i, 2 ≤ C.room i) (hpre : ∀ i, OnData limit (C.pre i))
    (hpost : ∀ i, OnData limit (C.post i))
    (hret : ∀ i, ∃ pcmd, prog[C.leave i]? = some pcmd ∧ Opcode.ofCode pcmd.cmd = .ret)
    (hbody : ∀ i, (∀ j, size j < size i → C.Kept h prog limit j) → C.Body h prog limit i) (i : ι) :
    C.Kept h prog limit i := by
  obtain ⟨k, hk⟩ : ∃ k, size i = k := ⟨_, rfl⟩
  induction k using Nat.strongRecOn generalizing i with
  | ind k ih =>
    intro n pcmd a s f hcode hcall hs hfit
    have hat : n < prog.length := (List.getElem?_eq_some_iff.mp hcode).1
    have hn : (BitVec.ofNat 32 n).toInt = n := by
      rw [BitVec.toInt_eq_toNat_of_lt (by rw [BitVec.toNat_ofNat]; omega), BitVec.toNat_ofNat]
      omega
    have hroom := hroom i
    have htwo : (2 : Word).toNat = 2 := rfl
    have hsub : (s - 2).toNat + 2 = s.toNat := by
      rw [BitVec.toNat_sub, htwo]
      omega
    obtain ⟨ret, hleave, hop⟩ := hret i
    have hwhole := hbody i (fun j hj => ih (size j) (hk ▸ hj) j rfl)
      ⟨.ofNat 32 n, s, f, a.words⟩ a.calls (s - 2) (by omega) (by omega)
    exact ((leads_call hcode hcall (hpre i) hlimit (by omega) hs).trans hwhole).trans
      (leads_ret hleave hop (hpost i) (by omega) hn)

end Contracts

/-- `initr 60`, `call 3`, `nop`, then at 3 `ift $0, 7`, `dec $0`, `call 3`, `inc $1` and `ret`. -/
def adding : List Command :=
  [⟨0, 0x30, 60, 0⟩, ⟨0, 0x23, 3, 0⟩, ⟨0, 0, 0, 0⟩, ⟨1, 0x21, 0, 7⟩, ⟨1, 0x03, 0, 0⟩,
    ⟨0, 0x23, 3, 0⟩, ⟨1, 0x02, 1, 0⟩, ⟨0, 0x24, 0, 0⟩]

/-- The first cell is added to the second, in calls as deep as it says. -/
def addition : Contract (Word × Word) where
  entry _ := 3
  leave _ := 7
  room x := 2 * (x.1.toNat + 1)
  pre x c := cell c.ram 0 = x.1 ∧ cell c.ram 1 = x.2
  post x c := cell c.ram 0 = 0 ∧ cell c.ram 1 = x.2 + x.1

theorem onData_cells (v w : Word) : OnData 36 fun c => cell c.ram 0 = v ∧ cell c.ram 1 = w := by
  rintro c d hsame ⟨hv, hw⟩
  exact ⟨(hsame.cells 0 (by decide) (by decide) (by decide) (by decide)).trans hv,
    (hsame.cells 1 (by decide) (by decide) (by decide) (by decide)).trans hw⟩

theorem addition_body (x : Word × Word)
    (ih : ∀ y : Word × Word, y.1.toNat < x.1.toNat → addition.Kept bareHost adding 36 y) :
    addition.Body bareHost adding 36 x := by
  intro o os s hs hfit
  obtain ⟨v, w⟩ := x
  change 36 + 2 * (v.toNat + 1) ≤ s.toNat + 3 at hfit
  have hbranch : Branches .ift 0 7 ⟨1, 0x21, 0, 7⟩ := ⟨⟨rfl, rfl, rfl⟩, rfl, rfl⟩
  have htest : adding[3]? = some ⟨1, 0x21, 0, 7⟩ := rfl
  have hin : ∀ (P : Chip → Prop) (r : Word) (c : Chip), r.toNat < 36 →
      Framed ⟨[], o :: os⟩ s s P c → InRam c.ram r := fun P r c hr hc =>
    inRam_reg hc.stack.size hr
  by_cases hv : v = 0
  · subst hv
    refine (hbranch.taken_leads (h := bareHost) (by decide) htest
      (fun c hc => hin _ 0 c (by decide) hc) fun c hc => ?_).mono (fun _ hc => hc)
      fun c hc => hc.mono fun d hd => ?_
    · rw [hc.holds.1]
      rfl
    · exact ⟨⟨_, hd.stack⟩, hd.holds.1, hd.holds.2.trans (BitVec.add_zero w).symm⟩
  · have hone : (1 : Word).toNat = 1 := rfl
    have hpos : v.toNat ≠ 0 := fun hz => hv (BitVec.eq_of_toNat_eq hz)
    have hless : (v - 1).toNat + 1 = v.toNat := by
      rw [BitVec.toNat_sub, hone]
      omega
    have hpass : Leads (flatTurn bareHost adding)
        (At 3 (Framed ⟨[], o :: os⟩ s s (addition.pre (v, w))))
        (At 4 (Framed ⟨[], o :: os⟩ s s (addition.pre (v, w)))) :=
      hbranch.passed_leads (by decide) htest (by decide) (fun c hc => hin _ 0 c (by decide) hc)
        fun c hc => by
          rw [hc.holds.1]
          exact congrArg some (decide_eq_false hv)
    have hdec : Leads (flatTurn bareHost adding)
        (At 4 (Framed ⟨[], o :: os⟩ s s (addition.pre (v, w))))
        (At 5 (Framed ⟨[], o :: os⟩ s s (addition.pre (v - 1, w)))) := by
      refine (OnCell.leads (g := fun x => x - 1) ⟨rfl, rfl, rfl⟩ (by decide)
        (show adding[4]? = some ⟨1, 0x03, 0, 0⟩ from rfl) (by decide) rfl (fun _ => rfl)
        fun c hc => hin _ 0 c (by decide) hc).mono (fun _ hc => hc) fun c hc => hc.mono ?_
      rintro _ ⟨d, hd, rfl⟩
      refine hd.assign (Nat.zero_le _) (by decide) (by decide) ⟨?_, ?_⟩
      · rw [Chip.assign, cell_set_self (hin _ 0 d (by decide) hd), hd.holds.1]
      · exact (cell_set_ne (by decide)).trans hd.holds.2
    have hcall := ih (v - 1, w) (show (v - 1).toNat < v.toNat by omega) 5 _ ⟨[], o :: os⟩ s s
      (show adding[5]? = some ⟨0, 0x23, 3, 0⟩ from rfl) ⟨rfl, rfl, rfl⟩ hs
      (show 36 + 2 * ((v - 1).toNat + 1) ≤ s.toNat + 1 by omega)
    refine ((hpass.trans hdec).trans hcall).trans ((OnCell.leads (g := fun x => x + 1)
      ⟨rfl, rfl, rfl⟩ (by decide) (show adding[6]? = some ⟨1, 0x02, 1, 0⟩ from rfl) (by decide) rfl
      (fun _ => rfl) fun c hc => hin _ 1 c (by decide) hc).mono (fun _ hc => hc)
      fun c hc => hc.mono ?_)
    rintro _ ⟨d, hd, rfl⟩
    have hkeep : Framed ⟨[], o :: os⟩ s s (addition.post (v, w))
        (d.assign 1 (cell d.ram 1 + 1)) := by
      refine hd.assign (show 1 ≤ s.toNat by omega) (by decide) (by decide) ⟨?_, ?_⟩
      · exact (cell_set_ne (by decide)).trans hd.holds.1
      · rw [Chip.assign, cell_set_self (hin _ 1 d (by decide) hd), hd.holds.2, BitVec.add_assoc,
          BitVec.sub_add_cancel]
    exact ⟨⟨_, hkeep.stack⟩, hkeep.holds⟩

theorem procedures_adding : addition.Kept bareHost adding 36 (5, 2) :=
  procedures bareHost adding 36 addition (fun x => x.1.toNat) (by decide) (by decide)
    (fun x => show 2 ≤ 2 * (x.1.toNat + 1) by omega) (fun x => onData_cells x.1 x.2)
    (fun x => onData_cells 0 (x.2 + x.1)) (fun _ => ⟨⟨0, 0x24, 0, 0⟩, rfl, rfl⟩) addition_body
    (5, 2)

end Vm
