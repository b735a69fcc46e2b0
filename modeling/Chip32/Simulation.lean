import Chip32.Translation
import Chip32.Emission
import Chip32.VmPaging

/-!
# Compiled programs keep their meaning

The machine's RAM is the source's memory with the program counter in cell 32.
Every command of a translation does to it what the source's command does to the
memory, so the two run in lockstep.
-/
namespace Asm

open Runs Vm
open Source (Loc Dest Src Binary Unary Instr Program Mem Usable Safe)

/-- RAM with the memory `m`, and `pc` in the register for it. -/
def image (size : Word) (m : Mem) (pc : Word) : List Word :=
  (List.range size.toNat).map fun r =>
    if r = regPc.toNat then pc else m (BitVec.ofNat 32 r)

/-- The machine with that RAM. -/
def withImage (c : Chip) (size : Word) (m : Mem) (pc : Word) : Chip :=
  { c with ram := image size m pc }

section Image

variable {size pc r v : Word} {m : Mem}

@[simp] theorem length_image : (image size m pc).length = size.toNat := by simp [image]

theorem inRam_image : InRam (image size m pc) r ↔ 0 ≤ r.toInt ∧ r.toInt < size.toNat := by
  rw [InRam, length_image]

theorem lt_of_inRam (h : InRam (image size m pc) r) : r.toNat < size.toNat := by
  obtain ⟨h₀, hlt⟩ := inRam_image.mp h
  rw [toNat_of_nonneg h₀] at hlt
  exact_mod_cast hlt

theorem cell_image (h : InRam (image size m pc) r) (hr : r ≠ regPc) :
    cell (image size m pc) r = m r := by
  have hne : r.toNat ≠ regPc.toNat := fun he => hr (BitVec.eq_of_toNat_eq he)
  have hlt := lt_of_inRam h
  simp [cell, image, List.getD_eq_getElem?_getD, hlt, hne]

theorem cell_image_pc (h : 35 ≤ size.toNat) : cell (image size m pc) regPc = pc := by
  have hlt : regPc.toNat < size.toNat := Nat.lt_of_lt_of_le (by decide) h
  simp [cell, image, List.getD_eq_getElem?_getD, hlt]

theorem set_image (hr : r ≠ regPc) :
    (image size m pc).set r.toNat v = image size (Function.update m r v) pc := by
  apply List.ext_getElem
  · simp
  · intro i hi hi'
    have hlt : i < size.toNat := by simpa using hi'
    rw [List.getElem_set]
    simp only [image, List.getElem_map, List.getElem_range]
    by_cases he : r.toNat = i
    · subst he
      have hne : r.toNat ≠ regPc.toNat := fun he => hr (BitVec.eq_of_toNat_eq he)
      simp [hne]
    · have hne : BitVec.ofNat 32 i ≠ r := by
        rintro rfl
        apply he
        rw [BitVec.toNat_ofNat, Nat.mod_eq_of_lt (by omega)]
      rw [if_neg he, Function.update_of_ne hne]

theorem set_image_pc : (image size m pc).set regPc.toNat v = image size m v := by
  apply List.ext_getElem
  · simp
  · intro i hi hi'
    rw [List.getElem_set]
    simp only [image, List.getElem_map, List.getElem_range]
    by_cases he : i = regPc.toNat
    · simp [he]
    · rw [if_neg (fun h => he h.symm), if_neg he, if_neg he]

theorem inRam_image_pc (h : 35 ≤ size.toNat) : InRam (image size m pc) regPc :=
  inRam_of_lt (by rw [length_image]; exact Nat.lt_of_lt_of_le (by decide) h) (by decide)

end Image

section Operands

variable {vars : List (List Char)} {size pc v : Word} {m : Mem} {h : Host} {c : Chip}
  (hram : c.ram = image size m pc)
include hram

theorem load_usable {r : Word} (hr : Usable size r) : load c r = .ok (m r) := by
  have hin : InRam (image size m pc) r := inRam_image.mpr ⟨hr.1, hr.2.1⟩
  rw [← cell_image hin hr.2.2.1, ← hram]
  exact load_ok (hram ▸ hin)

theorem store_usable {r : Word} (hr : Usable size r) :
    store c r v = .ok (withImage c size (Function.update m r v) pc) := by
  have hin : InRam (image size m pc) r := inRam_image.mpr ⟨hr.1, hr.2.1⟩
  rw [store_ok (hram ▸ hin), hram, set_image hr.2.2.1]
  rfl

theorem store_pc (hsize : 35 ≤ size.toNat) :
    store c regPc v = .ok (withImage c size m v) := by
  rw [store_ok (hram ▸ inRam_image_pc hsize), hram, set_image_pc]
  rfl

theorem getword_dest {d : Dest} (hd : ∀ r ∈ d.touches vars m, Usable size r) :
    getword h c (destMode d) ((destLoc d).number vars) = .ok (m (d.cell vars m), c) := by
  cases d with
  | ram w =>
    have hw := load_usable hram (hd (w.number vars) (by simp [Dest.touches]))
    simp [getword, destMode, destLoc, hw, Dest.cell]
  | ptr w =>
    have hw := load_usable hram (hd (w.number vars) (by simp [Dest.touches]))
    have hp := load_usable hram (hd (m (w.number vars)) (by simp [Dest.touches]))
    simp [getword, destMode, destLoc, hw, hp, Dest.cell]

theorem setword_dest {d : Dest} (hd : ∀ r ∈ d.touches vars m, Usable size r) :
    setword c (destMode d) ((destLoc d).number vars) v =
      .ok (withImage c size (Function.update m (d.cell vars m) v) pc) := by
  cases d with
  | ram w =>
    have hw := store_usable (v := v) hram (hd (w.number vars) (by simp [Dest.touches]))
    simp [setword, destMode, destLoc, hw, Dest.cell]
  | ptr w =>
    have hw := load_usable hram (hd (w.number vars) (by simp [Dest.touches]))
    have hp := store_usable (v := v) hram (hd (m (w.number vars)) (by simp [Dest.touches]))
    simp [setword, destMode, destLoc, hw, hp, Dest.cell]

theorem getword_src {s : Src} (hs : ∀ r ∈ s.touches vars m, Usable size r) :
    getword h c ((srcMode s).getD .literal) ((srcLoc s).number vars) =
      .ok (s.value vars m, c) := by
  cases s with
  | ram w =>
    have hw := load_usable hram (hs (w.number vars) (by simp [Src.touches]))
    simp [getword, srcMode, srcLoc, hw, Src.value]
  | ptr w =>
    have hw := load_usable hram (hs (w.number vars) (by simp [Src.touches]))
    have hp := load_usable hram (hs (m (w.number vars)) (by simp [Src.touches]))
    simp [getword, srcMode, srcLoc, hw, hp, Src.value]
  | addr w | plain w => rfl

end Operands

/-- The operands a command is given, as the handlers read them off it. -/
structure Given (vars : List (List Char)) (d : Dest) (pcmd : Command) : Prop where
  mode : arg0fGet pcmd.flags = destMode d
  arg : pcmd.arg0 = (destLoc d).number vars

structure GivenSrc (vars : List (List Char)) (s : Src) (pcmd : Command) : Prop where
  mode : arg1fGet pcmd.flags = (srcMode s).getD .literal
  arg : pcmd.arg1 = (srcLoc s).number vars

section Commands

variable {vars : List (List Char)} {size pc : Word} {m : Mem} {h : Host} {c : Chip}
  {pcmd : Command} {d : Dest} {s : Src} (hram : c.ram = image size m pc)
  (hdest : Given vars d pcmd) (hd : ∀ r ∈ d.touches vars m, Usable size r)
include hram hdest hd

theorem cmdUnary_image (f : Word → Word) :
    cmdUnary f h c pcmd =
      .ok (withImage c size (Function.update m (d.cell vars m) (f (m (d.cell vars m)))) pc,
        pcmd) := by
  rw [cmdUnary, hdest.mode, hdest.arg, getword_dest hram hd, ok_bind]
  simp only [setword_dest hram hd, ok_bind, pure_ok]

theorem cmdBinary_image (f : Word → Word → Word) (hsrc : GivenSrc vars s pcmd)
    (hs : ∀ r ∈ s.touches vars m, Usable size r) :
    cmdBinary (fun x y => .ok (f x y)) h c pcmd =
      .ok (withImage c size (Function.update m (d.cell vars m)
        (f (m (d.cell vars m)) (s.value vars m))) pc, pcmd) := by
  rw [cmdBinary, hdest.mode, hdest.arg, getword_dest hram hd, ok_bind, hsrc.mode, hsrc.arg]
  simp only [getword_src hram hs, ok_bind, setword_dest hram hd, pure_ok]

theorem cmdMove_image (hsrc : GivenSrc vars s pcmd) (hs : ∀ r ∈ s.touches vars m, Usable size r) :
    cmdMove h c pcmd =
      .ok (withImage c size (Function.update m (d.cell vars m) (s.value vars m)) pc, pcmd) := by
  rw [cmdMove, hdest.mode, hdest.arg, hsrc.mode, hsrc.arg]
  simp only [getword_src hram hs, ok_bind, setword_dest hram hd, pure_ok]

/-- The right operand is looked at only where the left one has not decided. -/
theorem cmdLogical_image (f : Word → Option Bool) {v : Word} (hsrc : GivenSrc vars s pcmd)
    (hs : f (m (d.cell vars m)) = none → ∀ r ∈ s.touches vars m, Usable size r)
    (hv : v = ofBool ((f (m (d.cell vars m))).getD (s.value vars m ≠ 0))) :
    cmdLogical f h c pcmd =
      .ok (withImage c size (Function.update m (d.cell vars m) v) pc, pcmd) := by
  rw [cmdLogical, hdest.mode, hdest.arg, getword_dest hram hd, ok_bind]
  cases hdec : f (m (d.cell vars m)) with
  | some b =>
    rw [hdec] at hv
    simp only [rightOperand, pure_ok, ok_bind, setword_dest hram hd, hdec, hv, Option.getD_some]
  | none =>
    rw [hdec] at hv
    simp only [rightOperand, pure_ok, ok_bind, setword_dest hram hd, hdec, hv, Option.getD_none,
      hsrc.mode, hsrc.arg, getword_src hram (hs hdec)]

theorem commands_binary (op : Binary) (hsrc : GivenSrc vars s pcmd)
    (hs : op.reads (m (d.cell vars m)) → ∀ r ∈ s.touches vars m, Usable size r) :
    commands (binaryCode op) h c pcmd =
      .ok (withImage c size (Function.update m (d.cell vars m)
        (op.apply (m (d.cell vars m)) (s.value vars m))) pc, pcmd) := by
  cases op with
  | move => exact cmdMove_image hram hdest hd hsrc (hs rfl)
  | sum => exact cmdBinary_image hram hdest hd (fun x y => x + y) hsrc (hs rfl)
  | dif => exact cmdBinary_image hram hdest hd (fun x y => x - y) hsrc (hs rfl)
  | mul => exact cmdBinary_image hram hdest hd (fun x y => x * y) hsrc (hs rfl)
  | or => exact cmdBinary_image hram hdest hd (fun x y => x ||| y) hsrc (hs rfl)
  | xor => exact cmdBinary_image hram hdest hd (fun x y => x ^^^ y) hsrc (hs rfl)
  | and => exact cmdBinary_image hram hdest hd (fun x y => x &&& y) hsrc (hs rfl)
  | not => exact cmdUnary_image hram hdest hd fun x => ~~~x
  | bor =>
    refine cmdLogical_image hram hdest hd (fun x => if x ≠ 0 then some true else none) hsrc
      (fun hnone => hs ?_) ?_
    · by_cases hz : m (d.cell vars m) = 0#32
      · simp [Binary.reads, hz]
      · simp [hz] at hnone
    · by_cases hz : m (d.cell vars m) = 0#32 <;> simp [Binary.apply, Source.truth, ofBool, hz]
  | band =>
    refine cmdLogical_image hram hdest hd (fun x => if x = 0 then some false else none) hsrc
      (fun hnone => hs ?_) ?_
    · by_cases hz : m (d.cell vars m) = 0#32
      · simp [hz] at hnone
      · simp [Binary.reads, hz]
    · by_cases hz : m (d.cell vars m) = 0#32 <;> simp [Binary.apply, Source.truth, ofBool, hz]

theorem commands_unary (op : Unary) :
    commands (unaryCode op) h c pcmd =
      .ok (withImage c size (Function.update m (d.cell vars m) (op.apply (m (d.cell vars m)))) pc,
        pcmd) := by
  cases op with
  | inc => exact cmdUnary_image hram hdest hd fun x => x + 1
  | dec => exact cmdUnary_image hram hdest hd fun x => x - 1
  | bnot =>
    refine (cmdUnary_image hram hdest hd fun x => ofBool (x = 0)).trans ?_
    simp [Unary.apply, Source.truth, ofBool]

/-- A conditional jump with its target in `arg1`. -/
theorem cmdJumpIf_image (test : Word → Bool) (hsize : 35 ≤ size.toNat)
    (hlit : arg1fGet pcmd.flags = .literal) :
    cmdJumpIf test h c pcmd =
      .ok (withImage c size m (if test (m (d.cell vars m)) then pcmd.arg1 - 1 else pc), pcmd) := by
  rw [cmdJumpIf, hdest.mode, hdest.arg, getword_dest hram hd, ok_bind]
  cases ht : test (m (d.cell vars m)) with
  | true =>
    simp only [jumpIf, ht, if_true, hlit, getword, pure_ok, ok_bind, store_pc hram hsize]
  | false =>
    simp only [jumpIf, ht, Bool.false_eq_true, if_false, pure_ok, ok_bind, withImage, ← hram]

end Commands

theorem cmdJmp_image {size pc : Word} {m : Mem} {h : Host} {c : Chip} {pcmd : Command}
    (hram : c.ram = image size m pc) (hsize : 35 ≤ size.toNat)
    (hlit : arg0fGet pcmd.flags = .literal) :
    cmdJmp h c pcmd = .ok (withImage c size m (pcmd.arg0 - 1), pcmd) := by
  simp only [cmdJmp, hlit, getword, pure_ok, ok_bind, store_pc hram hsize]

/-- What the program counter holds after a command, before its increment. -/
def beforeNext (vars : List (List Char)) (s : Source.State) (i : Instr) : Word :=
  match i.jump vars s with
  | some t => BitVec.ofInt 32 t - 1
  | none => BitVec.ofNat 32 s.pc

theorem target_word (pc : Nat) (n : Source.Numeral) :
    BitVec.ofNat 32 pc + 1 + n.word = BitVec.ofInt 32 (Source.target pc n) := by
  rw [Source.target, BitVec.ofInt_add, BitVec.ofInt_add, BitVec.ofInt_natCast, BitVec.ofInt_toInt]
  rfl

/-- The handler of a translated command leaves the memory of the source's command. -/
theorem commands_translate {vars : List (List Char)} {size : Word} {h : Host} {c : Chip}
    {s : Source.State} (i : Instr) (hsize : 35 ≤ size.toNat)
    (hram : c.ram = image size s.mem (BitVec.ofNat 32 s.pc))
    (hsafe : ∀ r ∈ i.touches vars s, Usable size r) :
    commands (.ofCode (translate vars s.pc i).cmd) h c (translate vars s.pc i) =
      .ok (withImage c size (i.effect vars s) (beforeNext vars s i), translate vars s.pc i) := by
  cases i with
  | binary op d x =>
    have hdest : Given vars d (translate vars s.pc (.binary op d x)) := ⟨arg0fGet_two _ _, rfl⟩
    have hsrc : GivenSrc vars x (translate vars s.pc (.binary op d x)) := ⟨arg1fGet_two _ _, rfl⟩
    have hd : ∀ r ∈ d.touches vars s.mem, Usable size r := fun r hr =>
      hsafe r (List.mem_append_left _ hr)
    have hs : op.reads (s.mem (d.cell vars s.mem)) →
        ∀ r ∈ x.touches vars s.mem, Usable size r := fun hop r hr =>
      hsafe r (List.mem_append_right _ (by rwa [if_pos hop]))
    rw [translate, Opcode.ofCode_code]
    exact commands_binary hram hdest hd op hsrc hs
  | unary op d =>
    have hdest : Given vars d (translate vars s.pc (.unary op d)) := ⟨arg0fGet_dest _, rfl⟩
    rw [translate, Opcode.ofCode_code]
    exact commands_unary hram hdest hsafe op
  | jmpi n =>
    rw [translate, Opcode.ofCode_code]
    have hlit : arg0fGet 0 = .literal := by decide
    refine (cmdJmp_image hram hsize hlit).trans ?_
    simp only [target_word, beforeNext, Instr.jump, Instr.effect]
  | ift d n =>
    have hdest : Given vars d (translate vars s.pc (.ift d n)) := ⟨arg0fGet_dest _, rfl⟩
    have hlit : arg1fGet (arg0fSet 0 (destMode d)) = .literal := arg1fGet_two (destMode d) none
    rw [translate, Opcode.ofCode_code]
    refine (cmdJumpIf_image hram hdest hsafe (fun v => v = 0) hsize hlit).trans ?_
    simp only [translate, target_word, beforeNext, Instr.jump, Instr.effect, decide_eq_true_eq]
    split_ifs <;> rfl
  | iff d n =>
    have hdest : Given vars d (translate vars s.pc (.iff d n)) := ⟨arg0fGet_dest _, rfl⟩
    have hlit : arg1fGet (arg0fSet 0 (destMode d)) = .literal := arg1fGet_two (destMode d) none
    rw [translate, Opcode.ofCode_code]
    refine (cmdJumpIf_image hram hdest hsafe (fun v => v ≠ 0) hsize hlit).trans ?_
    simp only [translate, target_word, beforeNext, Instr.jump, Instr.effect, decide_eq_true_eq]
    split_ifs <;> rfl

/-- The machine is about to run the source's next command, on the source's memory. -/
structure Represents (p : Program) (s : Source.State) (c : Chip) : Prop where
  running : c.state = .running
  ram : c.ram = image p.size.word s.mem (BitVec.ofNat 32 s.pc)
  pos : 1 ≤ s.pc
  le : s.pc ≤ p.code.length + 1

theorem object_at (p : Program) {s : Source.State} (h : 1 ≤ s.pc) :
    (object p)[s.pc]? = (p.next s).map (translate p.vars s.pc) := by
  obtain ⟨n, hn⟩ : ∃ n, s.pc = n + 1 := ⟨s.pc - 1, by omega⟩
  simp [object, translated, Program.next, hn]

theorem length_object (p : Program) : (object p).length = p.code.length + 1 := by
  simp [object, translated]

section Lockstep

variable {p : Program} {s : Source.State} {c : Chip} {h : Host} (hsize : 35 ≤ p.size.word.toNat)
include hsize

theorem Represents.pc (hr : Represents p s c) (hcount : p.code.length + 1 < 2 ^ 31) :
    cell c.ram regPc = BitVec.ofNat 32 s.pc ∧ (cell c.ram regPc).toInt = s.pc := by
  have hcell : cell c.ram regPc = BitVec.ofNat 32 s.pc := by
    rw [hr.ram, cell_image_pc hsize]
  have hlt := Nat.lt_of_le_of_lt hr.le hcount
  have hnat : (BitVec.ofNat 32 s.pc).toNat = s.pc := by
    rw [BitVec.toNat_ofNat, Nat.mod_eq_of_lt (by omega)]
  refine ⟨hcell, ?_⟩
  rw [hcell, BitVec.toInt_eq_toNat_of_lt (by omega), hnat]

omit hsize in
/-- What the increment makes of the program counter is the number of the next command. -/
theorem beforeNext_next {i : Instr} (hjump : ∀ t ∈ i.jump p.vars s, 1 ≤ t) :
    beforeNext p.vars s i + 1 = BitVec.ofNat 32 (i.exec p.vars s).pc := by
  unfold beforeNext Instr.exec
  cases hj : i.jump p.vars s with
  | none => rw [BitVec.ofNat_add]; rfl
  | some t =>
    have ht : 0 ≤ t := by
      have := hjump t hj
      omega
    obtain ⟨n, rfl⟩ := Int.eq_ofNat_of_zero_le ht
    rw [BitVec.sub_add_cancel]
    exact BitVec.ofInt_natCast 32 n

theorem represents_exec {i : Instr} (hr : Represents p s c)
    (hi : p.next s = some i) (hs : Safe p s) :
    ∃ q, execute h c (translate p.vars s.pc i) =
        .ok (withImage c p.size.word (i.effect p.vars s)
          (BitVec.ofNat 32 (i.exec p.vars s).pc), q) ∧
      Represents p (i.exec p.vars s) (withImage c p.size.word (i.effect p.vars s)
          (BitVec.ofNat 32 (i.exec p.vars s).pc)) := by
  obtain ⟨htouch, hjump⟩ := hs i hi
  have hcmd := commands_translate (h := h) i hsize hr.ram htouch
  have hpc := beforeNext_next fun t ht => (hjump t ht).1
  have hin : InRam (withImage c p.size.word (i.effect p.vars s) (beforeNext p.vars s i)).ram
      regPc := inRam_image_pc hsize
  refine ⟨translate p.vars s.pc i, ?_, hr.running, rfl, ?_, ?_⟩
  · rw [execute_ok hcmd hin, withImage, cell_image_pc hsize, set_image_pc, hpc]
    rfl
  · unfold Instr.exec
    cases hj : i.jump p.vars s with
    | none => exact Nat.le_add_left 1 s.pc
    | some t =>
      have := (hjump t hj).1
      simp only
      omega
  · unfold Instr.exec
    cases hj : i.jump p.vars s with
    | none =>
      have hlt := (List.getElem?_eq_some_iff.mp hi).1
      have := hr.pos
      simp only
      omega
    | some t =>
      have := hjump t hj
      simp only
      omega

theorem flatTurn_lockstep (hcount : p.code.length + 1 < 2 ^ 31) (hr : Represents p s c)
    (hs : Safe p s) :
    (∃ d, flatTurn h (object p) c = .ok (.next d) ∧ Represents p (Source.step p s) d) ∨
      flatTurn h (object p) c = .ok (.stop c) ∧ Source.step p s = s := by
  obtain ⟨hcell, hint⟩ := hr.pc hsize hcount
  have hload : load c regPc = .ok (cell c.ram regPc) :=
    load_ok (by rw [hr.ram]; exact inRam_image_pc hsize)
  have hidx : ((cell c.ram regPc).signExtend 64).toNat = s.pc := by
    have hnn : 0 ≤ (cell c.ram regPc).toInt := by omega
    have := toNat_of_nonneg hnn
    rw [signExtend_toNat hnn]
    omega
  simp only [flatTurn, hr.running, ne_eq, not_true_eq_false, if_false, hload, ok_bind, hidx,
    object_at p hr.pos, Source.step]
  cases hi : p.next s with
  | none => exact .inr ⟨rfl, rfl⟩
  | some i =>
    obtain ⟨q, hexec, hd⟩ := represents_exec (h := h) hsize hr hi hs
    exact .inl ⟨_, by simp only [Option.map_some, hexec, ok_bind, pure_ok], hd⟩

omit hsize in
theorem initRam_image (p : Program) (words : Nat → Word) :
    initRam p.size.word words = image p.size.word (p.initial words).mem 1 := by
  apply List.ext_getElem
  · simp [initRam]
  · intro i hi hi'
    have hlt : i < p.size.word.toNat := by simpa using hi'
    have hlt' := p.size.word.isLt
    have hnat : (BitVec.ofNat 32 i).toNat = i := by
      rw [BitVec.toNat_ofNat, Nat.mod_eq_of_lt (by omega)]
    have hword : ∀ r : Word, BitVec.ofNat 32 i = r ↔ i = r.toNat := by
      intro r
      rw [← BitVec.toNat_inj, hnat]
    have hregs : regPc.toNat = 32 ∧ regStk.toNat = 33 ∧ regFrm.toNat = 34 := ⟨rfl, rfl, rfl⟩
    have hnums : (33 : Word).toNat = 33 ∧ (34 : Word).toNat = 34 := ⟨rfl, rfl⟩
    simp only [initRam, image, Program.initial, List.getElem_set, List.getElem_map,
      List.getElem_range, hword, hnat, hregs, hnums]
    split_ifs <;> first | rfl | omega

/-- `initr` puts the machine in front of the first command. -/
theorem flatStart_represents {words : Nat → Word} (hm : h.malloc p.size.word = some words) :
    ∃ c, flatStart h (object p) = .ok (.next c) ∧ Represents p (p.initial words) c := by
  have hinit := initr_ok (c := Chip.new []) (initrOf p) rfl hm hsize
  exact ⟨_, by simp only [flatStart, object, hinit, ok_bind]; rfl, rfl, initRam_image p words,
    Nat.le_refl 1, Nat.le_add_left 1 _⟩

theorem flatRun_represents {words : Nat → Word} (hm : h.malloc p.size.word = some words)
    (hcount : p.code.length + 1 < 2 ^ 31) {k : Nat}
    (hsafe : ∀ i < k, Safe p (Source.steps p i (p.initial words))) :
    ∃ d, (flatRun h (object p) k = .ok (.next d) ∨ flatRun h (object p) k = .ok (.stop d)) ∧
      Represents p (Source.steps p k (p.initial words)) d := by
  obtain ⟨c, hc, hr⟩ := flatStart_represents hsize hm
  simp only [flatRun, hc, ok_bind]
  exact iterate_lockstep _ (f := Source.step p) (R := fun c s => Represents p s c) (P := Safe p)
    (fun _ _ hst hs => flatTurn_lockstep hsize hcount hst hs) hr hsafe

end Lockstep

theorem not_rewrites_translate (vars : List (List Char)) (i : Nat) (x : Instr) :
    ¬ Rewrites (.ofCode (translate vars i x).cmd) := by
  cases x with
  | binary op d s =>
    rw [translate, Opcode.ofCode_code]
    cases op <;> decide
  | unary op d =>
    rw [translate, Opcode.ofCode_code]
    cases op <;> decide
  | jmpi n | ift d n | iff d n =>
    rw [translate, Opcode.ofCode_code]
    decide

theorem runnable_object (p : Program) : Runnable (object p) where
  first := rfl
  keeps := by
    intro pcmd hp
    rcases List.mem_cons.mp hp with rfl | hp
    · simp only [initrOf, Opcode.ofCode_code]
      decide
    · obtain ⟨i, hi, rfl⟩ := List.mem_mapIdx.mp hp
      exact not_rewrites_translate _ _ _

/-- An accepted source and the commands it is assembled to: after any number of
iterations of `chip32_run`'s loop, which has loaded them into one page, RAM and
program counter are those of the source's interpreter after as many steps. -/
theorem program_preserved (code : Text) (p : Program) (c : Asmchip32) (hread : Reads code p)
    (hbuild : build code = .ok c) (buf : List Command) (hpage : c.mc.length < buf.length)
    (hbuf : buf.length < 2 ^ 31) (words : Nat → Word) (un : Unspecified)
    (hsize : 35 ≤ p.size.word.toNat) (k : Nat)
    (hsafe : ∀ i < k, Safe p (Source.steps p i (p.initial words))) :
    ∃ l, (run (ObjectFile.host (ObjectFile.commandsSave c.mc) (fun _ => some words) un)
          (Chip.new buf) k = .ok (.next l) ∨
        run (ObjectFile.host (ObjectFile.commandsSave c.mc) (fun _ => some words) un)
          (Chip.new buf) k = .ok (.stop l)) ∧
      l.chip.state = .running ∧
      l.chip.ram = image p.size.word (Source.steps p k (p.initial words)).mem
        (BitVec.ofNat 32 (Source.steps p k (p.initial words)).pc) := by
  rw [build_object hread hbuild] at *
  rw [length_object] at hpage
  have hcount : p.code.length + 1 < 2 ^ 31 := hpage.trans hbuf
  -- the flat machine keeps pace with the source, and so stays inside the page
  have hflat := fun i (hi : i ≤ k) => flatRun_represents (k := i)
    (h := ObjectFile.host (ObjectFile.commandsSave (object p)) (fun _ => some words) un)
    hsize (by rfl) hcount fun j hj => hsafe j (Nat.lt_of_lt_of_le hj hi)
  have hwithin : ∀ i < k, ∀ d, flatRun (ObjectFile.host (ObjectFile.commandsSave (object p))
      (fun _ => some words) un) (object p) i = .ok (.next d) → Within d buf.length := by
    intro i hi d hd
    obtain ⟨e, he, hr⟩ := hflat i hi.le
    rw [hd] at he
    rcases he with he | he <;> cases he
    obtain ⟨_, hint⟩ := hr.pc hsize hcount
    have := hr.le
    constructor <;> omega
  have hrun := run_onPage ⟨by omega, by omega⟩ (fun _ => some words) un (runnable_object p) hwithin
  obtain ⟨d, hd, hr⟩ := hflat k le_rfl
  refine ⟨onPage (object p) buf d, ?_, hr.running, hr.ram⟩
  rw [hrun]
  rcases hd with hd | hd <;> rw [hd]
  · exact .inl rfl
  · exact .inr rfl

/-- `x` counts down from 3. -/
def countdown : Text := "initr 40\ndeclare x, ?\nmove $x, 3\ndec $x\niff $x, -2\n".toList

def numeral (neg : Bool) (ds : List Char) (h : ds ≠ [] ∧ ds.all Char.isDigit ∧
    Source.decimal ds < 2 ^ 31) : Source.Numeral where
  neg := neg
  digits := ds
  nonempty := h.1
  digits_ok := List.all_eq_true.mp h.2.1
  fits := ⟨h.2.2.trans (by decide), fun _ => h.2.2.le⟩

def countdownProgram : Program where
  size := numeral false ['4', '0'] (by decide)
  lines :=
    [.declare ['x'],
     .instr (.binary .move (.ram (.var ['x'])) (.plain (.cell (numeral false ['3'] (by decide))))),
     .instr (.unary .dec (.ram (.var ['x']))),
     .instr (.iff (.ram (.var ['x'])) (numeral true ['2'] (by decide)))]

theorem countdown_reads : Reads countdown countdownProgram :=
  ⟨final (lexer (.new countdown)), ok_final (by decide +kernel), by decide +kernel⟩

def countdownHost : Host :=
  ObjectFile.host (ObjectFile.commandsSave (final (build countdown)).mc) (fun _ => some fun _ => 7)
    ⟨⟨0, 0, 0, 0⟩, true⟩

/-- Where the interpreter is after eight steps, of which two jumped back. -/
def countdownEnd : Source.State :=
  Source.steps countdownProgram 8 (countdownProgram.initial fun _ => 7)

example : countdownEnd.pc = 4 ∧ countdownEnd.mem 35 = 0 := by decide +kernel

/-- It only touches `x`, and its jump leads back to the `dec`. -/
theorem countdown_safe (s : Source.State) : Safe countdownProgram s := by
  have hx : Usable countdownProgram.size.word (BitVec.ofNat 32 35) := by decide
  intro i hi
  obtain ⟨hlt, rfl⟩ := List.getElem?_eq_some_iff.mp hi
  have hlen : countdownProgram.code.length = 3 := rfl
  rw [hlen] at hlt
  obtain h | h | h : s.pc - 1 = 0 ∨ s.pc - 1 = 1 ∨ s.pc - 1 = 2 := by omega
  all_goals simp only [h]
  · exact ⟨List.forall_mem_singleton.mpr hx, fun t ht => nomatch ht⟩
  · exact ⟨List.forall_mem_singleton.mpr hx, fun t ht => nomatch ht⟩
  · refine ⟨List.forall_mem_singleton.mpr hx, fun t ht => ?_⟩
    have hback : t = s.pc + 1 + -2 := by
      obtain ⟨-, ht⟩ := Option.ite_none_right_eq_some.mp (Option.mem_def.mp ht)
      exact (Option.some.inj ht).symm
    omega

theorem countdown_accepted : build countdown = .ok (final (build countdown)) :=
  ok_final (by decide +kernel)

theorem countdown_length : (final (build countdown)).mc.length < 512 := by decide +kernel

theorem program_preserved_countdown :
    ∃ l, (run countdownHost (Chip.new (pagesOf 512)) 8 = .ok (.next l) ∨
          run countdownHost (Chip.new (pagesOf 512)) 8 = .ok (.stop l)) ∧
      l.chip.state = .running ∧
      l.chip.ram = image countdownProgram.size.word countdownEnd.mem
        (BitVec.ofNat 32 countdownEnd.pc) := by
  have hlen : (pagesOf 512).length = 512 := List.length_replicate
  have hpage : (final (build countdown)).mc.length < (pagesOf 512).length := by
    rw [hlen]
    exact countdown_length
  exact program_preserved countdown countdownProgram (final (build countdown)) countdown_reads
    countdown_accepted (pagesOf 512) hpage (by rw [hlen]; decide) (fun _ => 7) ⟨⟨0, 0, 0, 0⟩, true⟩
    (by decide) 8 fun _ _ => countdown_safe _

end Asm
