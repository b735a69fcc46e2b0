import Chip32.VmPaging

/-!
# Effects

A command does a few things to the machine: it writes cells, prints, FAILs, and
complains where it has no cell to store to. Whatever these keep, every command keeps.
-/
namespace Vm

open Runs (Ensures ensures_pure ensures_error)

/-- The machine `setword` leaves without a cell to write. -/
def Chip.complain (c : Chip) : Chip :=
  { c with state := .fail, stdout := c.stdout ++ "setword fail\n" }

/-- A relation between the machine before and the machine after that holds
whatever a command writes, prints or FAILs at. -/
structure Tracks (R : Chip → Chip → Prop) : Prop where
  refl : ∀ c, R c c
  trans : ∀ {c d e}, R c d → R d e → R c e
  write : ∀ c i v, R c { c with ram := c.ram.set i v }
  fail : ∀ c, R c { c with state := .fail }
  print : ∀ c text, R c { c with stderr := c.stderr ++ text }

/-- The handlers that store to their first operand. -/
def Stores : Opcode → Bool
  | .move | .inc | .dec | .sum | .dif | .mul | .div | .mod | .or | .xor | .and | .not | .shl
  | .shr | .rol | .ror | .bor | .band | .bnot | .pop | .strcpy => true
  | _ => false

/-- An operand that stands for a cell. -/
def Writable (type : Mode) : Prop := type = .ram ∨ type = .ptr

instance (type : Mode) : Decidable (Writable type) := inferInstanceAs (Decidable (_ ∨ _))

section Accesses

variable {R : Chip → Chip → Prop} (ht : Tracks R) {b c : Chip} (hb : R b c)

include ht hb

omit ht in
theorem load_tracks (r : Word) : Ensures (load c r) fun _ => R b c := fun _ _ => hb

theorem store_tracks (r v : Word) : Ensures (store c r v) (R b) := by
  intro d hd
  obtain ⟨_, rfl⟩ := store_eq_ok.mp hd
  exact ht.trans hb (ht.write ..)

theorem getword_tracks (h : Host) (type : Mode) (r : Word) :
    Ensures (getword h c type r) fun x => R b x.2 := by
  cases type with
  | literal => exact ensures_pure hb
  | ram => exact (load_tracks hb r).bind fun _ _ => ensures_pure hb
  | ptr =>
    exact (load_tracks hb r).bind fun a _ =>
      (load_tracks hb a).bind fun _ _ => ensures_pure hb
  | data =>
    refine ensures_pure ?_
    by_cases hn : (h.dataLoad r [h.tmp]).1 = 1 <;> simp only [hn, ne_eq, not_true_eq_false,
      not_false_eq_true, if_false, if_true]
    · exact hb
    · exact ht.trans hb (ht.fail _)

/-- A store to an operand that is a cell, or where a complaint does not matter. -/
theorem setword_tracks {type : Mode} (hw : Writable type ∨ ∀ c : Chip, R c c.complain)
    (r v : Word) : Ensures (setword c type r v) (R b) := by
  cases type with
  | ram => exact store_tracks ht hb r v
  | ptr => exact (load_tracks hb r).bind fun a _ => store_tracks ht hb a v
  | literal | data =>
    rcases hw with hw | hw
    · exact absurd hw (by decide)
    · exact ensures_pure (ht.trans hb (hw c))

theorem pushWord_tracks (v : Word) : Ensures (pushWord c v) (R b) :=
  (load_tracks hb _).bind fun stk _ =>
    (store_tracks ht hb regStk (stk - 1)).bind fun _ hd => store_tracks ht hd stk v

theorem popWord_tracks : Ensures (popWord c) fun x => R b x.2 :=
  (load_tracks hb _).bind fun stk _ =>
    (store_tracks ht hb regStk (stk + 1)).bind fun _ hd =>
      (load_tracks hd (stk + 1)).bind fun _ _ => ensures_pure hd

end Accesses

section Handlers

variable {R : Chip → Chip → Prop} (ht : Tracks R) {b c : Chip} (hb : R b c) (h : Host)
  {pcmd : Command}

include ht hb

theorem unary_tracks (op : Word → Word)
    (hw : Writable (arg0fGet pcmd.flags) ∨ ∀ c : Chip, R c c.complain) :
    Ensures (cmdUnary op h c pcmd) fun x => R b x.1 :=
  (getword_tracks ht hb h _ _).bind fun _ hx =>
    (setword_tracks ht hx hw _ _).bind fun _ hd => ensures_pure hd

theorem binary_tracks (op : Word → Word → Except Fault Word)
    (hw : Writable (arg0fGet pcmd.flags) ∨ ∀ c : Chip, R c c.complain) :
    Ensures (cmdBinary op h c pcmd) fun x => R b x.1 :=
  (getword_tracks ht hb h _ _).bind fun _ hx =>
    (getword_tracks ht hx h _ _).bind fun _ hy =>
      Ensures.bind (P := fun _ => True) (fun _ _ => trivial) fun _ _ =>
        (setword_tracks ht hy hw _ _).bind fun _ hd => ensures_pure hd

theorem move_tracks (hw : Writable (arg0fGet pcmd.flags) ∨ ∀ c : Chip, R c c.complain) :
    Ensures (cmdMove h c pcmd) fun x => R b x.1 :=
  (getword_tracks ht hb h _ _).bind fun _ hx =>
    (setword_tracks ht hx hw _ _).bind fun _ hd => ensures_pure hd

theorem rightOperand_tracks (o : Option Bool) :
    Ensures (rightOperand h c pcmd o) fun x => R b x.2 := by
  cases o with
  | some _ => exact ensures_pure hb
  | none => exact (getword_tracks ht hb h _ _).bind fun _ hx => ensures_pure hx

theorem logical_tracks (decide : Word → Option Bool)
    (hw : Writable (arg0fGet pcmd.flags) ∨ ∀ c : Chip, R c c.complain) :
    Ensures (cmdLogical decide h c pcmd) fun x => R b x.1 :=
  (getword_tracks ht hb h _ _).bind fun _ hx =>
    (rightOperand_tracks ht hx h _).bind fun _ hy =>
      (setword_tracks ht hy hw _ _).bind fun _ hd => ensures_pure hd

theorem jmp_tracks : Ensures (cmdJmp h c pcmd) fun x => R b x.1 :=
  (getword_tracks ht hb h _ _).bind fun _ hx =>
    (store_tracks ht hx _ _).bind fun _ hd => ensures_pure hd

theorem jumpIf_tracks (test : Word → Bool) : Ensures (cmdJumpIf test h c pcmd) fun x => R b x.1 := by
  refine (getword_tracks ht hb h _ _).bind fun x hx => Ensures.bind (P := R b) ?_ fun _ hd =>
    ensures_pure hd
  cases test x.1 with
  | false => exact ensures_pure hx
  | true => exact (getword_tracks ht hx h _ _).bind fun _ hy => store_tracks ht hy _ _

theorem call_tracks : Ensures (cmdCall h c pcmd) fun x => R b x.1 :=
  (getword_tracks ht hb h _ _).bind fun _ hx =>
    (load_tracks hx _).bind fun _ _ =>
      (pushWord_tracks ht hx _).bind fun _ hd =>
        (load_tracks hd _).bind fun _ _ =>
          (pushWord_tracks ht hd _).bind fun _ he =>
            (load_tracks he _).bind fun _ _ =>
              (store_tracks ht he _ _).bind fun _ hf =>
                (store_tracks ht hf _ _).bind fun _ hg => ensures_pure hg

theorem ret_tracks : Ensures (cmdRet h c pcmd) fun x => R b x.1 :=
  (load_tracks hb _).bind fun _ _ =>
    (store_tracks ht hb _ _).bind fun _ hd =>
      (popWord_tracks ht hd).bind fun _ hx =>
        (store_tracks ht hx _ _).bind fun _ he =>
          (popWord_tracks ht he).bind fun _ hy =>
            (store_tracks ht hy _ _).bind fun _ hf => ensures_pure hf

theorem push_tracks : Ensures (cmdPush h c pcmd) fun x => R b x.1 := by
  unfold cmdPush
  split
  · exact (load_tracks hb _).bind fun _ _ =>
      (store_tracks ht hb _ _).bind fun _ hd =>
        (getword_tracks ht hd h _ _).bind fun _ hx =>
          (store_tracks ht hx _ _).bind fun _ he => ensures_pure he
  · exact (getword_tracks ht hb h _ _).bind fun _ hx =>
      (pushWord_tracks ht hx _).bind fun _ hd => ensures_pure hd

theorem pop_tracks (hw : Writable (arg0fGet pcmd.flags) ∨ ∀ c : Chip, R c c.complain) :
    Ensures (cmdPop h c pcmd) fun x => R b x.1 :=
  (popWord_tracks ht hb).bind fun _ hx =>
    (setword_tracks ht hx hw _ _).bind fun _ hd => ensures_pure hd

/-- An `initr` that is not the first command FAILs. -/
theorem initr_tracks (hram : c.ram ≠ []) : Ensures (cmdInitr h c pcmd) fun x => R b x.1 := by
  rw [cmdInitr, if_pos hram]
  exact ensures_pure (ht.trans hb (ht.fail c))

theorem log_tracks (text : Word → String) : Ensures (cmdLog text h c pcmd) fun x => R b x.1 :=
  (getword_tracks ht hb h _ _).bind fun _ hx => ensures_pure (ht.trans hx (ht.print _ _))

omit hb in
theorem logsLoop_tracks (k : Nat) {c : Chip} {pcmd : Command} (hb : R b c) :
    Ensures (logsLoop h k c pcmd) fun x => R b x.1 := by
  induction k generalizing c pcmd with
  | zero => exact ensures_error
  | succ k ih =>
    refine (getword_tracks ht hb h _ _).bind fun x hx => ?_
    by_cases hv : x.1 = 0 <;> simp only [hv, if_true, if_false]
    · exact ensures_pure hx
    · exact ih (ht.trans hx (ht.print _ _))

omit hb in
theorem strcpyLoop_tracks (k : Nat) {c : Chip} {pcmd : Command} (hb : R b c)
    (hw : Writable (arg0fGet pcmd.flags) ∨ ∀ c : Chip, R c c.complain) :
    Ensures (strcpyLoop h k c pcmd) fun x => R b x.1 := by
  induction k generalizing c pcmd with
  | zero => exact ensures_error
  | succ k ih =>
    refine (getword_tracks ht hb h _ _).bind fun x hx => ?_
    refine (setword_tracks ht hx hw _ _).bind fun d hd => ?_
    by_cases hv : x.1 = 0 <;> simp only [hv, if_true, if_false]
    · exact ensures_pure hd
    · exact ih hd hw

/-- What the effects keep, a command keeps, on a machine that has its memory. -/
theorem commands_tracks {op : Opcode} (hram : c.ram ≠ [])
    (hw : Stores op → Writable (arg0fGet pcmd.flags) ∨ ∀ c : Chip, R c c.complain) :
    Ensures (commands op h c pcmd) fun x => R b x.1 := by
  cases op with
  | nop => exact ensures_pure hb
  | move => exact move_tracks ht hb h (hw rfl)
  | inc | dec | not | bnot =>
    simp only [commands, cmdInc, cmdDec, cmdNot, cmdBnot]
    exact unary_tracks ht hb h _ (hw rfl)
  | sum | dif | mul | div | mod | or | xor | and | shl | shr | rol | ror =>
    simp only [commands, cmdSum, cmdDif, cmdMul, cmdDiv, cmdMod, cmdOr, cmdXor, cmdAnd, cmdShl,
      cmdShr, cmdRol, cmdRor]
    exact binary_tracks ht hb h _ (hw rfl)
  | bor | band =>
    simp only [commands, cmdBor, cmdBand]
    exact logical_tracks ht hb h _ (hw rfl)
  | jmp => exact jmp_tracks ht hb h
  | ift | iff =>
    simp only [commands, cmdIft, cmdIff]
    exact jumpIf_tracks ht hb h _
  | call => exact call_tracks ht hb h
  | ret => exact ret_tracks ht hb h
  | push => exact push_tracks ht hb h
  | pop => exact pop_tracks ht hb h (hw rfl)
  | initr => exact initr_tracks ht hb h hram
  | logi | logu | logc =>
    simp only [commands, cmdLogi, cmdLogu, cmdLogc]
    exact log_tracks ht hb h _
  | logs => exact logsLoop_tracks ht h _ hb
  | logln => exact ensures_pure (ht.trans hb (ht.print ..))
  | strcpy => exact strcpyLoop_tracks ht h _ hb (hw rfl)

/-- And so does a dispatch. -/
theorem execute_tracks (hram : c.ram ≠ [])
    (hw : Stores (.ofCode pcmd.cmd) → Writable (arg0fGet pcmd.flags) ∨ ∀ c : Chip, R c c.complain) :
    Ensures (execute h c pcmd) fun x => R b x.1 :=
  (commands_tracks ht hb h hram hw).bind fun _ hx =>
    (load_tracks hx _).bind fun _ _ =>
      (store_tracks ht hx _ _).bind fun _ hd => ensures_pure hd

end Handlers

section Loop

variable {h : Host} {c : Chip} {s t u : Loop} {pcmd : Command}

/-- What `chip32_run` has done when it enters its loop. -/
theorem start_next (hs : start h c = .ok (.next s)) :
    ∃ pcmd rest, (h.dataLoad 0 c.data).2 = pcmd :: rest ∧ 0 ≤ (h.dataLoad 0 c.data).1 ∧
      pcmd.cmd = Opcode.initr.code ∧ s.ncmds = (h.dataLoad 0 c.data).1 ∧ s.chip.state ≠ .fail ∧
      cmdInitr h { c with data := pcmd :: rest, pagecurrent := 0 } pcmd = .ok (s.chip, pcmd) := by
  unfold start at hs
  simp only at hs
  split at hs
  · cases hs
  · next hn =>
    split at hs
    · cases hs
    · next pcmd rest hdata =>
      split at hs
      · cases hs
      · next hcode =>
        obtain ⟨⟨d, q⟩, hi, hs⟩ := Runs.bind_eq_ok.mp hs
        simp only at hs
        split at hs
        · cases hs
        · next hstate =>
          cases hs
          obtain ⟨hpage, rfl⟩ := frame_initr.kept hi
          have hd : d.data = (h.dataLoad 0 c.data).2 := congrArg Page.data hpage
          refine ⟨q, rest, hdata, Int.not_lt.mp hn, not_not.mp hcode, rfl, hstate, ?_⟩
          rw [← hdata, hi, ← hd]

/-- The loop as it looks at its command: with another page where the PC is on one. -/
def fetched (h : Host) (s : Loop) : Loop :=
  if NoReload s.chip then s else reload h (pageOf (cell s.chip.ram regPc) s.chip.pagesize) s

theorem fetched_chip : (fetched h s).chip.ram = s.chip.ram ∧
    (fetched h s).chip.pagesize = s.chip.pagesize ∧ (fetched h s).chip.ramsize = s.chip.ramsize := by
  unfold fetched
  split <;> exact ⟨rfl, rfl, rfl⟩

/-- Where the loop goes on looking, it leaves at a page that cannot be loaded and at a
command that was not. -/
theorem turnPage_running (hs : s.chip.state = .running) (hin : InRam s.chip.ram regPc)
    (hz : s.chip.pagesize ≠ 0) :
    turnPage h s = .ok (if (fetched h s).ncmds < 0 ∧ ¬ NoReload s.chip ∨
      (fetched h s).ncmds ≤ (cell s.chip.ram regPc).toInt.tmod s.chip.pagesize.toNat
        then .stop (fetched h s) else .next (fetched h s)) := by
  have hf : (if ¬ pageOf (cell s.chip.ram regPc) s.chip.pagesize = s.chip.pagecurrent then
      reload h (pageOf (cell s.chip.ram regPc) s.chip.pagesize) s else s) = fetched h s := by
    by_cases hn : NoReload s.chip
    · exact (if_neg (not_not.mpr hn)).trans (if_pos hn).symm
    · exact (if_pos hn).trans (if_neg hn).symm
  simp only [turnPage, hs, ne_eq, not_true_eq_false, if_false, load_ok hin, Runs.ok_bind, hz, hf]
  change (if (fetched h s).ncmds < 0 ∧ ¬ NoReload s.chip then _ else _) = _
  by_cases hneg : (fetched h s).ncmds < 0 ∧ ¬ NoReload s.chip
  · rw [if_pos hneg, if_pos (.inl hneg)]
    rfl
  · simp only [hneg, if_false, false_or]
    split <;> rfl

/-- With the PC right behind the first page, the second one is loaded, and the dispatch is
outside of it. -/
theorem turn_behind (hs : s.chip.state = .running) (hin : InRam s.chip.ram regPc)
    (hcur : s.chip.pagecurrent = 0) (hsize : s.chip.pagesize.toNat = s.chip.data.length)
    (hpc : 0 ≤ (cell s.chip.ram regPc).toInt) (hend : pcIndex s.chip = s.chip.data.length)
    (hpos : 1 ≤ s.chip.data.length) (hload : 0 < (h.dataLoad 1 s.chip.data).1) :
    turn h s = .error .pageBounds := by
  have hidx : (cell s.chip.ram regPc).toNat = s.chip.data.length := by
    rw [← hend, pcIndex, signExtend_toNat hpc]
  have hpage : pageOf (cell s.chip.ram regPc) s.chip.pagesize = 1 := by
    apply BitVec.eq_of_toNat_eq
    rw [pageOf, BitVec.toNat_setWidth, BitVec.toNat_udiv, signExtend_toNat hpc,
      BitVec.toNat_setWidth_of_le (by decide), hidx, hsize, Nat.div_self hpos]
    rfl
  have hz : s.chip.pagesize ≠ 0 := by
    intro hz
    rw [hz] at hsize
    exact absurd (hsize ▸ hpos) (by decide)
  have hreload : fetched h s = reload h 1 s := by
    have hno : ¬ NoReload s.chip := by
      unfold NoReload
      rw [hpage, hcur]
      decide
    rw [fetched, if_neg hno, hpage]
  have hmod : (cell s.chip.ram regPc).toInt.tmod s.chip.pagesize.toNat = 0 := by
    rw [toNat_of_nonneg hpc, hidx, hsize]
    exact Int.tmod_self
  have hncmds : (reload h 1 s).ncmds = (h.dataLoad 1 s.chip.data).1 := rfl
  have hturn : turnPage h s = .ok (.next (reload h 1 s)) := by
    rw [turnPage_running hs hin hz, hreload, hmod, hncmds, if_neg (by omega)]
  have hload : load (reload h 1 s).chip regPc = .ok (cell s.chip.ram regPc) := load_ok hin
  have hnone : (reload h 1 s).chip.data[((cell s.chip.ram regPc).signExtend 64).toNat]? = none := by
    rw [List.getElem?_eq_none_iff]
    exact Nat.le_of_eq ((h.length_dataLoad 1 s.chip.data).trans hend.symm)
  simp only [turn, hturn, Runs.ok_bind, dispatch, hload, hnone]
  rfl

/-- What an iteration has looked at when it comes to its dispatch. -/
theorem turnPage_next_iff : turnPage h s = .ok (.next t) ↔
    (s.chip.state = .running ∧ InRam s.chip.ram regPc ∧ s.chip.pagesize ≠ 0) ∧ t = fetched h s ∧
      ¬ ((fetched h s).ncmds < 0 ∧ ¬ NoReload s.chip ∨
        (fetched h s).ncmds ≤ (cell s.chip.ram regPc).toInt.tmod s.chip.pagesize.toNat) := by
  by_cases hlook : s.chip.state = .running ∧ InRam s.chip.ram regPc ∧ s.chip.pagesize ≠ 0
  · obtain ⟨hs, hin, hz⟩ := hlook
    rw [turnPage_running hs hin hz]
    simp only [hs, hin, hz, ne_eq, not_false_eq_true, and_self, true_and, Except.ok.injEq]
    split
    · next hstop => exact iff_of_false (fun he => nomatch he) fun he => he.2 hstop
    · next hstop =>
      rw [Runs.Outcome.next.injEq]
      exact ⟨fun he => ⟨he.symm, hstop⟩, fun he => he.1.symm⟩
  · refine iff_of_false (fun ht => hlook ?_) fun he => hlook he.1
    unfold turnPage at ht
    split at ht
    · cases ht
    · next hs =>
      obtain ⟨pc, hpc, ht⟩ := Runs.bind_eq_ok.mp ht
      simp only at ht
      split at ht
      · cases ht
      · next hz => exact ⟨not_not.mp hs, (load_eq_ok.mp hpc).1, hz⟩

/-- The last iteration of a run. -/
theorem run_succ {k : Nat} (hr : run h c k = .ok (.next s)) : run h c (k + 1) = turn h s := by
  obtain ⟨o, ho, hr⟩ := Runs.bind_eq_ok.mp hr
  cases o with
  | stop t => cases hr
  | next t =>
    rw [run, ho]
    exact Runs.iterate_succ_last _ hr

/-- A run that has ended has ended for good. -/
theorem run_ended {k m : Nat} {r : Except Fault (Runs.Outcome Loop)} (hr : run h c k = r)
    (hend : ∀ s, r ≠ .ok (.next s)) (hle : k ≤ m) : run h c m = r := by
  rw [run] at hr ⊢
  cases ho : start h c with
  | error e =>
    rw [ho] at hr
    exact hr
  | ok o =>
    rw [ho] at hr
    cases o with
    | stop t => exact hr
    | next t => exact Runs.iterate_ended _ hr hend hle

theorem run_unique {k m : Nat} {r r' : Except Fault (Runs.Outcome Loop)} (hr : run h c k = r)
    (hr' : run h c m = r') (hend : ∀ s, r ≠ .ok (.next s)) (hend' : ∀ s, r' ≠ .ok (.next s)) :
    r = r' := by
  rcases Nat.le_total k m with hle | hle
  · exact (run_ended hr hend hle).symm.trans hr'
  · exact hr.symm.trans (run_ended hr' hend' hle)

/-- An iteration that loads no page. -/
theorem turn_ok {d : Chip} {q : Command} (ht : turnPage h s = .ok (.next s))
    (hin : InRam s.chip.ram regPc) (hcur : current s.chip = some pcmd)
    (he : execute h s.chip pcmd = .ok (d, q)) :
    turn h s =
      .ok (.next { s with chip := { d with data := d.data.set (pcIndex s.chip) q } }) := by
  have hget : s.chip.data[((cell s.chip.ram regPc).signExtend 64).toNat]? = some pcmd := hcur
  simp only [turn, ht, Runs.ok_bind, dispatch, load_ok hin, hget, he]
  rfl

/-- What holds as the loop is entered and is kept by its iterations holds at its head. -/
theorem reached_invariant {P I : Loop → Prop} (hstart : ∀ s, start h c = .ok (.next s) → I s)
    (hturn : ∀ s u, I s → P s → turn h s = .ok (.next u) → I u) {k : Nat}
    (hp : ∀ i < k, ∀ s, run h c i = .ok (.next s) → P s) (hr : run h c k = .ok (.next s)) : I s := by
  obtain ⟨o, ho, hr⟩ := Runs.bind_eq_ok.mp hr
  cases o with
  | stop t => cases hr
  | next t =>
    refine Runs.iterate_invariant _ hturn (hstart t ho) (fun i hi u hu => hp i hi u ?_) hr
    rw [run, ho]
    exact hu

end Loop

/-- Memory is as large as its size says and holds the registers. -/
structure HasMemory (c : Chip) : Prop where
  length : c.ram.length = c.ramsize.toNat
  registers : 35 ≤ c.ram.length

section Memory

variable {h : Host} {c : Chip} {s t u : Loop} {pcmd : Command}

/-- No command changes the size of the memory. -/
theorem tracks_memory :
    Tracks fun c d => d.ram.length = c.ram.length ∧ d.ramsize = c.ramsize where
  refl _ := ⟨rfl, rfl⟩
  trans h h' := ⟨h'.1.trans h.1, h'.2.trans h.2⟩
  write _ _ _ := ⟨List.length_set, rfl⟩
  fail _ := ⟨rfl, rfl⟩
  print _ _ := ⟨rfl, rfl⟩

theorem HasMemory.ne_nil (hm : HasMemory c) : c.ram ≠ [] := by
  intro hnil
  have := hm.registers
  rw [hnil] at this
  cases this

theorem HasMemory.inRam (hm : HasMemory c) {r : Word} (hr : r.toNat < 35) : InRam c.ram r :=
  inRam_of_lt (by have := hm.registers; omega) (by omega)

theorem HasMemory.execute (hm : HasMemory c) : Ensures (execute h c pcmd) fun x => HasMemory x.1 :=
  (execute_tracks tracks_memory (tracks_memory.refl c) h hm.ne_nil fun _ => .inr fun _ =>
    ⟨rfl, rfl⟩).mono fun _ hx => ⟨by rw [hx.1, hx.2, hm.length], hx.1 ▸ hm.registers⟩

/-- The memory of an `initr` that does not FAIL. -/
theorem initr_memory {d : Chip} {q : Command} (hi : cmdInitr h c pcmd = .ok (d, q))
    (hd : d.state ≠ .fail) : HasMemory d ∧ d.ramsize = pcmd.arg0 := by
  unfold cmdInitr at hi
  split at hi
  · cases hi
    exact absurd rfl hd
  · simp only at hi
    split at hi
    · cases hi
      exact absurd rfl hd
    · split at hi
      · cases hi
        exact absurd rfl hd
      · next words _ =>
        obtain ⟨e, he, hi⟩ := Runs.bind_eq_ok.mp hi
        cases hi
        obtain ⟨c₁, h₁, he⟩ := Runs.bind_eq_ok.mp he
        obtain ⟨_, rfl⟩ := store_eq_ok.mp h₁
        obtain ⟨c₂, h₂, h₃⟩ := Runs.bind_eq_ok.mp he
        obtain ⟨_, rfl⟩ := store_eq_ok.mp h₂
        obtain ⟨⟨_, hlast⟩, rfl⟩ := store_eq_ok.mp h₃
        simp only [List.length_set, List.length_map, List.length_range] at hlast
        refine ⟨⟨by simp, ?_⟩, rfl⟩
        have hfrm : regFrm.toInt = 34 := by decide
        simp only [List.length_set, List.length_map, List.length_range]
        omega

theorem HasMemory.turnPage (hm : HasMemory s.chip) (ht : turnPage h s = .ok (.next t)) :
    HasMemory t.chip := by
  obtain ⟨_, rfl, _⟩ := turnPage_next_iff.mp ht
  obtain ⟨hram, _, hsize⟩ := fetched_chip (h := h) (s := s)
  exact ⟨by rw [hram, hsize, hm.length], hram ▸ hm.registers⟩

/-- Whenever the loop is at its head there is memory. -/
theorem run_memory {buf : List Command} {k : Nat} (hr : run h (Chip.new buf) k = .ok (.next s)) :
    HasMemory s.chip := by
  refine reached_invariant (P := fun _ => True) (I := fun s => HasMemory s.chip) (fun s hs => ?_)
    (fun s u hm _ hu => ?_) (fun _ _ _ _ => trivial) hr
  · obtain ⟨_, _, _, _, _, _, hstate, hi⟩ := start_next hs
    exact (initr_memory hi hstate).1
  · obtain ⟨t, ht, hd⟩ := turn_next hu
    obtain ⟨pcmd, d, q, _, he, rfl⟩ := dispatch_next hd
    have hd := (hm.turnPage ht).execute _ he
    exact ⟨hd.length, hd.registers⟩

end Memory

end Vm
