import Chip32.VmStep
import Chip32.VmEffects

/-!
# Rotations

Both handlers rotate to the left, so one after the other they rotate twice as far.
A word comes back from that if its bits repeat.
-/
namespace Vm

section Words

variable {w r : Nat} {x y : BitVec w}

/-- A rotation moves the bits `r` places up. -/
theorem getLsbD_rotated (hr : r < w) {i : Nat} (hi : i < w) :
    (x.rotateLeft r).getLsbD ((i + r) % w) = x.getLsbD i := by
  rw [BitVec.getLsbD_rotateLeft_of_le hr]
  by_cases hlt : i + r < w
  · rw [Nat.mod_eq_of_lt hlt]
    simp [hlt, show ¬ i + r < r by omega]
  · have hmod : (i + r) % w = i + r - w := by
      rw [Nat.mod_eq_sub_mod (by omega), Nat.mod_eq_of_lt (by omega)]
    have hback : w - r + (i + r - w) = i := by omega
    rw [hmod, hback]
    simp [show i + r - w < r by omega]

theorem back_and_forth (hr : r < w) {j : Nat} (hj : j < w) : ((j + (w - r)) % w + r) % w = j := by
  rw [Nat.mod_add_mod, show j + (w - r) + r = j + w by omega, Nat.add_mod_right,
    Nat.mod_eq_of_lt hj]

theorem rotateLeft_eq_iff (hr : r < w) :
    x.rotateLeft r = y ↔ ∀ i < w, y.getLsbD ((i + r) % w) = x.getLsbD i := by
  constructor
  · rintro rfl i hi
    exact getLsbD_rotated hr hi
  · intro h
    apply BitVec.eq_of_getLsbD_eq
    intro j hj
    have hi : (j + (w - r)) % w < w := Nat.mod_lt _ (by omega)
    have hx := @getLsbD_rotated w r x hr _ hi
    have hy := h _ hi
    rw [back_and_forth hr hj] at hx hy
    rw [hx, hy]

/-- The bits come round every `n` places. -/
def Repeats (x : BitVec w) (n : Nat) : Prop := ∀ i < w, x.getLsbD ((i + n) % w) = x.getLsbD i

instance (x : BitVec w) (n : Nat) : Decidable (Repeats x n) :=
  inferInstanceAs (Decidable (∀ i < w, _))

theorem rotateLeft_self_iff (hr : r < w) : x.rotateLeft r = x ↔ Repeats x r :=
  rotateLeft_eq_iff hr

theorem rotateLeft_twice_iff (hr : r < w) :
    (x.rotateLeft r).rotateLeft r = x ↔ Repeats x (2 * r) := by
  rw [rotateLeft_eq_iff hr]
  constructor
  · intro h i hi
    have hj : (i + r) % w < w := Nat.mod_lt _ (by omega)
    have hback : ((i + r) % w + r) % w = (i + 2 * r) % w := by
      rw [Nat.mod_add_mod, show i + r + r = i + 2 * r by omega]
    have hx := h _ hj
    rw [hback, getLsbD_rotated hr hi] at hx
    exact hx
  · intro h i hi
    have hj : (i + (w - r)) % w < w := Nat.mod_lt _ (by omega)
    have htwice : ((i + (w - r)) % w + 2 * r) % w = (i + r) % w := by
      rw [Nat.mod_add_mod, show i + (w - r) + 2 * r = i + r + w by omega, Nat.add_mod_right]
    have hx := h _ hj
    rw [htwice] at hx
    rw [hx, ← @getLsbD_rotated w r x hr _ hj, back_and_forth hr hi]

end Words

theorem rotateLeft_eq (v : Word) {r : Nat} (hr : r < 32) :
    v <<< r ||| v >>> (32 - r) = v.rotateLeft r :=
  (BitVec.rotateLeft_eq_rotateLeftAux_of_lt hr).symm

/-- The cells an operand is read through. -/
def touched (ram : List Word) (type : Mode) (r : Word) : List Word :=
  match type with
  | .ram => [r]
  | .ptr => [r, cell ram r]
  | _ => []

section Operands

variable {h : Host} {ram ram' : List Word} {type : Mode} {r : Word}

/-- An operand is the same in two memories that agree on its cells. -/
theorem value_agree (hc : ∀ x ∈ touched ram type r, cell ram' x = cell ram x) :
    value h ram' type r = value h ram type r := by
  cases type with
  | literal | data => rfl
  | ram => exact hc r (by simp [touched])
  | ptr =>
    simp only [touched, List.mem_cons, List.not_mem_nil, or_false, forall_eq_or_imp, forall_eq] at hc
    rw [value, value, hc.1, hc.2]

theorem reaches_agree (hlen : ram'.length = ram.length)
    (hc : ∀ x ∈ touched ram type r, cell ram' x = cell ram x) :
    Reaches ram' type r ↔ Reaches ram type r := by
  cases type with
  | literal | data => exact Iff.rfl
  | ram => rw [Reaches, Reaches, InRam, InRam, hlen]
  | ptr =>
    rw [Reaches, Reaches, InRam, InRam, InRam, InRam, hlen, hc r (by simp [touched])]

end Operands

/-- One of the two handlers, or a dispatch of its command with the same operands. -/
def rotation (h : Host) (dispatched : Bool) (op : Opcode) (c : Chip) (pcmd : Command) :
    Except Fault (Chip × Command) :=
  if dispatched then execute h c { pcmd with cmd := op.code } else commands op h c pcmd

/-- The PC is incremented by a dispatch only. -/
def ticked (dispatched : Bool) (ram : List Word) : List Word := if dispatched then tick ram else ram

section Rotation

variable {h : Host} {dispatched : Bool} {op : Opcode} {c d : Chip} {pcmd q : Command}

theorem cell_ticked {ram : List Word} {x : Word} (hx : dispatched → regPc ≠ x) :
    cell (ticked dispatched ram) x = cell ram x := by
  cases dispatched with
  | false => rfl
  | true => exact cell_set_ne (hx rfl)

theorem length_ticked (ram : List Word) : (ticked dispatched ram).length = ram.length := by
  cases dispatched <;> simp [ticked, tick]

theorem commands_rotated (hop : op = .rol ∨ op = .ror) :
    commands op h c pcmd = cmdBinary rotated h c pcmd := by
  rcases hop with rfl | rfl <;> rfl

variable (h dispatched) in
/-- Whichever of the two it is, it rotates the destination to the left. -/
theorem rotation_ok (hop : op = .rol ∨ op = .ror)
    (hr : Reaches c.ram (arg0fGet pcmd.flags) pcmd.arg0)
    (hr' : Reaches c.ram (arg1fGet pcmd.flags) pcmd.arg1)
    (hcount : 1 ≤ (operand1 h c pcmd).toNat ∧ (operand1 h c pcmd).toNat ≤ 31)
    (hpc : dispatched → InRam c.ram regPc) {a : Word}
    (ha : destination c.ram (arg0fGet pcmd.flags) pcmd.arg0 = some a) :
    ∃ d q, rotation h dispatched op c pcmd = .ok (d, q) ∧
      d.ram = ticked dispatched (c.ram.set a.toNat
        ((operand0 h c pcmd).rotateLeft (operand1 h c pcmd).toNat)) := by
  have hlt : (operand1 h c pcmd).toNat < 32 := Nat.lt_succ_of_le hcount.2
  have hrot : rotated (operand0 h c pcmd) (operand1 h c pcmd) =
      .ok ((operand0 h c pcmd).rotateLeft (operand1 h c pcmd).toNat) := by
    rw [rotated_eq _ _ ⟨hcount.1, hlt⟩, rotateLeft_eq _ hlt]
  have hcmd := binary_reaches hr hr' hrot
  have hput : ∀ v, (c.put (arg0fGet pcmd.flags) pcmd.arg0 v).ram = c.ram.set a.toNat v := by
    intro v
    rw [Chip.put, ha]
  cases dispatched with
  | false => exact ⟨_, _, (commands_rotated hop).trans hcmd, hput _⟩
  | true =>
    have hcode : commands (.ofCode op.code) h c { pcmd with cmd := op.code } =
        .ok ((c.put (arg0fGet pcmd.flags) pcmd.arg0
          ((operand0 h c pcmd).rotateLeft (operand1 h c pcmd).toNat)).failIf
            (Unloaded h (arg1fGet pcmd.flags) pcmd.arg1), { pcmd with cmd := op.code }) := by
      rw [Opcode.ofCode_code, commands_rotated hop]
      exact @binary_reaches h c { pcmd with cmd := op.code } _ _ hr hr' hrot
    refine ⟨_, _, execute_ok hcode (inRam_put.mpr (hpc rfl)), ?_⟩
    simp only [failIf_ram, hput]
    rfl

theorem rotation_reaches (hop : op = .rol ∨ op = .ror)
    (hd : rotation h dispatched op c pcmd = .ok (d, q)) :
    Reaches c.ram (arg0fGet pcmd.flags) pcmd.arg0 := by
  have hcmd : ∃ x, cmdBinary rotated h c pcmd = .ok x ∨
      cmdBinary rotated h c { pcmd with cmd := op.code } = .ok x := by
    cases dispatched with
    | false => exact ⟨_, .inl ((commands_rotated hop).symm.trans hd)⟩
    | true =>
      obtain ⟨x, hx, _⟩ := Runs.bind_eq_ok.mp hd
      rw [Opcode.ofCode_code, commands_rotated hop] at hx
      exact ⟨x, .inr hx⟩
  obtain ⟨x, hx | hx⟩ := hcmd
  · obtain ⟨_, hg, _⟩ := Runs.bind_eq_ok.mp hx
    exact reaches_of_getword hg
  · obtain ⟨_, hg, _⟩ := Runs.bind_eq_ok.mp hx
    exact reaches_of_getword hg

end Rotation

section Twice

variable (h : Host) (dispatched : Bool) (first second : Opcode) (c : Chip) (pcmd : Command)

/-- A cell to rotate, a count of 1 to 31 that is not read through it, and, if the
commands are dispatched, a PC that is no cell of an operand. -/
structure Rotates : Prop where
  writable : Writable (arg0fGet pcmd.flags)
  reaches : Reaches c.ram (arg0fGet pcmd.flags) pcmd.arg0
  source : Reaches c.ram (arg1fGet pcmd.flags) pcmd.arg1
  count : 1 ≤ (operand1 h c pcmd).toNat ∧ (operand1 h c pcmd).toNat ≤ 31
  apart : ∀ a ∈ destination c.ram (arg0fGet pcmd.flags) pcmd.arg0,
    a ∉ touched c.ram (arg1fGet pcmd.flags) pcmd.arg1
  pc : dispatched → InRam c.ram regPc ∧ regPc ∉ touched c.ram (arg0fGet pcmd.flags) pcmd.arg0 ∧
    regPc ∉ touched c.ram (arg1fGet pcmd.flags) pcmd.arg1

/-- The destination has its value back, and so has every other cell but the PC. -/
def Restores : Prop :=
  ∃ d q e q' a, rotation h dispatched first c pcmd = .ok (d, q) ∧
    rotation h dispatched second d pcmd = .ok (e, q') ∧
    destination c.ram (arg0fGet pcmd.flags) pcmd.arg0 = some a ∧
    cell e.ram a = cell c.ram a ∧
    ∀ x, x ≠ a → x ≠ regPc → cell e.ram x = cell c.ram x

/-- The destination is written through a cell that points to itself. -/
def SelfPointing : Prop := arg0fGet pcmd.flags = .ptr ∧ cell c.ram pcmd.arg0 = pcmd.arg0

instance : Decidable (SelfPointing c pcmd) := inferInstanceAs (Decidable (_ ∧ _))

end Twice

section Twice

variable {h : Host} {dispatched : Bool} {first second : Opcode} {c d : Chip} {pcmd : Command}

theorem inRam_destination {ram : List Word} {type : Mode} {r a : Word} (hr : Reaches ram type r)
    (ha : destination ram type r = some a) :
    InRam ram a ∧ a ∈ touched ram type r ∧ value h ram type r = cell ram a := by
  cases type with
  | literal | data => cases ha
  | ram =>
    cases ha
    exact ⟨hr, by simp [touched], rfl⟩
  | ptr =>
    cases ha
    exact ⟨hr.2, by simp [touched], rfl⟩

theorem Rotates.ne_pc (hs : Rotates h dispatched c pcmd) {x : Word}
    (hx : x ∈ touched c.ram (arg0fGet pcmd.flags) pcmd.arg0 ∨
      x ∈ touched c.ram (arg1fGet pcmd.flags) pcmd.arg1) (hdis : dispatched) : regPc ≠ x := by
  rintro rfl
  exact hx.elim (hs.pc hdis).2.1 (hs.pc hdis).2.2

/-- The first rotation leaves the source to the second one. -/
theorem Rotates.once (hs : Rotates h dispatched c pcmd) (hop : first = .rol ∨ first = .ror)
    {a : Word} (ha : destination c.ram (arg0fGet pcmd.flags) pcmd.arg0 = some a) :
    ∃ d q, rotation h dispatched first c pcmd = .ok (d, q) ∧
      cell d.ram a = (operand0 h c pcmd).rotateLeft (operand1 h c pcmd).toNat ∧
      (∀ x, x ≠ a → (dispatched → regPc ≠ x) → cell d.ram x = cell c.ram x) ∧
      d.ram.length = c.ram.length ∧ operand1 h d pcmd = operand1 h c pcmd ∧
      Reaches d.ram (arg1fGet pcmd.flags) pcmd.arg1 := by
  obtain ⟨hin, hmem, _⟩ := inRam_destination (h := h) hs.reaches ha
  obtain ⟨d, q, hd, hram⟩ :=
    rotation_ok h dispatched hop hs.reaches hs.source hs.count (fun hdis => (hs.pc hdis).1) ha
  have hlen : d.ram.length = c.ram.length := by rw [hram, length_ticked, List.length_set]
  have hother : ∀ x, x ≠ a → (dispatched → regPc ≠ x) → cell d.ram x = cell c.ram x := by
    intro x hx hx'
    rw [hram, cell_ticked hx', cell_set_ne hx.symm]
  have hsource : ∀ x ∈ touched c.ram (arg1fGet pcmd.flags) pcmd.arg1, cell d.ram x = cell c.ram x :=
    fun x hx => hother x (fun he => hs.apart a ha (he ▸ hx)) (hs.ne_pc (.inr hx))
  refine ⟨d, q, hd, ?_, hother, hlen, value_agree hsource, (reaches_agree hlen hsource).mpr hs.source⟩
  rw [hram, cell_ticked (hs.ne_pc (.inl hmem)), cell_set_self hin]

/-- Two rotations of a cell that is not the pointer to it. -/
theorem restores_iff (hs : Rotates h dispatched c pcmd) (hself : ¬ SelfPointing c pcmd)
    (hf : first = .rol ∨ first = .ror) (hop : second = .rol ∨ second = .ror) :
    Restores h dispatched first second c pcmd ↔
      ((operand0 h c pcmd).rotateLeft (operand1 h c pcmd).toNat).rotateLeft
        (operand1 h c pcmd).toNat = operand0 h c pcmd := by
  obtain ⟨a, ha⟩ : ∃ a, destination c.ram (arg0fGet pcmd.flags) pcmd.arg0 = some a := by
    rcases hs.writable with hm | hm <;> exact ⟨_, by rw [hm]; rfl⟩
  obtain ⟨_, hmem, hval⟩ := inRam_destination (h := h) hs.reaches ha
  obtain ⟨d, q, hd, hrot, hother, hlen, hcount, hsource⟩ := hs.once hf ha
  -- the second command finds the same cell
  have ha' : destination d.ram (arg0fGet pcmd.flags) pcmd.arg0 = some a ∧
      Reaches d.ram (arg0fGet pcmd.flags) pcmd.arg0 := by
    have hreach := hs.reaches
    rcases hs.writable with hmode | hmode <;> rw [hmode] at ha hreach ⊢ <;> cases ha
    · exact ⟨rfl, by rw [Reaches, InRam, hlen]; exact hreach⟩
    · have hne : pcmd.arg0 ≠ cell c.ram pcmd.arg0 := fun he => hself ⟨hmode, he.symm⟩
      have hptr := hother pcmd.arg0 hne (hs.ne_pc (.inl (by simp [hmode, touched])))
      rw [destination, hptr, Reaches, hptr, InRam, InRam, hlen]
      exact ⟨rfl, hreach⟩
  obtain ⟨hin', _, hval'⟩ := inRam_destination (h := h) ha'.2 ha'.1
  obtain ⟨e, q', he, hram⟩ := rotation_ok h dispatched hop ha'.2 hsource
    (by rw [hcount]; exact hs.count) (fun hdis => by rw [InRam, hlen]; exact (hs.pc hdis).1) ha'.1
  have hback : cell e.ram a = ((operand0 h c pcmd).rotateLeft (operand1 h c pcmd).toNat).rotateLeft
      (operand1 h c pcmd).toNat := by
    rw [hram, cell_ticked (hs.ne_pc (.inl hmem)), cell_set_self hin', hcount, ← hrot, ← hval']
    rfl
  have hv : operand0 h c pcmd = cell c.ram a := hval
  rw [← hback]
  constructor
  · rintro ⟨d', _, e', _, a', hd', he', haa, hcell, _⟩
    cases hd.symm.trans hd'
    cases he.symm.trans he'
    cases ha.symm.trans haa
    exact hcell.trans hv.symm
  · intro heq
    refine ⟨d, q, e, q', a, hd, he, ha, heq.trans hv, fun x hx hx' => ?_⟩
    rw [hram, cell_ticked fun _ => hx'.symm, cell_set_ne hx.symm, hother x hx fun _ => hx'.symm]

/-- A pointer to itself is rotated, and then the second command follows it elsewhere. -/
theorem restores_selfPointing (hs : Rotates h dispatched c pcmd) (hself : SelfPointing c pcmd)
    (hf : first = .rol ∨ first = .ror) (hop : second = .rol ∨ second = .ror) :
    Restores h dispatched first second c pcmd ↔
      (operand0 h c pcmd).rotateLeft (operand1 h c pcmd).toNat = operand0 h c pcmd := by
  obtain ⟨hmode, hptr⟩ := hself
  have ha : destination c.ram (arg0fGet pcmd.flags) pcmd.arg0 = some pcmd.arg0 := by
    rw [hmode, destination, hptr]
  obtain ⟨hin, hmem, hval⟩ := inRam_destination (h := h) hs.reaches ha
  obtain ⟨d, q, hd, hrot, hother, hlen, hcount, hsource⟩ := hs.once hf ha
  have hv : operand0 h c pcmd = pcmd.arg0 := hval.trans hptr
  have ha' : destination d.ram (arg0fGet pcmd.flags) pcmd.arg0 = some (cell d.ram pcmd.arg0) := by
    rw [hmode, destination]
  have hsecond := fun hreach => rotation_ok h dispatched (c := d) hop hreach
    hsource (by rw [hcount]; exact hs.count) (fun hdis => by rw [InRam, hlen]; exact (hs.pc hdis).1) ha'
  constructor
  · rintro ⟨d', _, e, q', a', hd', he, haa, hcell, _⟩
    cases hd.symm.trans hd'
    cases ha.symm.trans haa
    obtain ⟨e', _, he', hram⟩ := hsecond (rotation_reaches hop he)
    cases he.symm.trans he'
    by_contra hne
    have hmoved : cell d.ram pcmd.arg0 ≠ pcmd.arg0 := by
      rw [hrot]
      exact fun heq => hne (heq.trans hv.symm)
    rw [hram, cell_ticked (hs.ne_pc (.inl hmem)), cell_set_ne hmoved, hrot, hptr] at hcell
    exact hne (hcell.trans hv.symm)
  · intro heq
    have hstay : cell d.ram pcmd.arg0 = pcmd.arg0 := by rw [hrot, heq, hv]
    have hin' : InRam d.ram pcmd.arg0 := by
      rw [InRam, hlen]
      exact hin
    have hreach : Reaches d.ram (arg0fGet pcmd.flags) pcmd.arg0 := by
      rw [hmode, Reaches, hstay]
      exact ⟨hin', hin'⟩
    obtain ⟨e, q', he, hram⟩ := hsecond hreach
    have hval' : operand0 h d pcmd = operand0 h c pcmd := by
      rw [hv, operand0, hmode, value, hstay, hstay]
    rw [hstay, hval', hcount, heq, hv] at hram
    refine ⟨d, q, e, q', pcmd.arg0, hd, he, ha, ?_, fun x hx hx' => ?_⟩
    · rw [hram, cell_ticked (hs.ne_pc (.inl hmem)), cell_set_self hin', hptr]
    · rw [hram, cell_ticked fun _ => hx'.symm, cell_set_ne hx.symm, hother x hx fun _ => hx'.symm]

end Twice

/-- One rotation after the other undoes it exactly where twice the count brings the
bits of the word back to their places, or the count itself does, if the destination
is written through a cell that points to itself. -/
theorem rotations_iff {h : Host} {dispatched : Bool} {first second : Opcode} {c : Chip}
    {pcmd : Command} (hs : Rotates h dispatched c pcmd)
    (hops : first = .rol ∧ second = .ror ∨ first = .ror ∧ second = .rol) :
    Restores h dispatched first second c pcmd ↔
      Repeats (operand0 h c pcmd) (2 * (operand1 h c pcmd).toNat) ∧
        (SelfPointing c pcmd → Repeats (operand0 h c pcmd) (operand1 h c pcmd).toNat) := by
  have hlt : (operand1 h c pcmd).toNat < 32 := Nat.lt_succ_of_le hs.count.2
  have hf : first = .rol ∨ first = .ror := hops.imp And.left And.left
  have hop : second = .rol ∨ second = .ror := hops.symm.imp And.right And.right
  rw [← rotateLeft_twice_iff hlt, ← rotateLeft_self_iff hlt]
  by_cases hself : SelfPointing c pcmd
  · rw [restores_selfPointing hs hself hf hop]
    exact ⟨fun heq => ⟨by rw [heq, heq], fun _ => heq⟩, fun heq => heq.2 hself⟩
  · rw [restores_iff hs hself hf hop]
    exact ⟨fun heq => ⟨heq, fun hp => absurd hp hself⟩, And.left⟩

/-- A machine with `v` in the cell 0 and the registers of `initr 40`. -/
def rotateChip (v : Word) : Chip :=
  { Chip.new [] with ram := v :: List.replicate 31 0 ++ [1, 39, 39] ++ List.replicate 5 0 }

/-- The operands `$0, r`. -/
def rotateOperands (r : Word) : Command := ⟨1, 0, 0, r⟩

theorem rotates_cell (v : Word) {r : Word} (hr : 1 ≤ r.toNat ∧ r.toNat ≤ 31) :
    Rotates emptyHost true (rotateChip v) (rotateOperands r) := by
  have h₀ : arg0fGet (rotateOperands r).flags = .ram := (by decide : arg0fGet 1 = .ram)
  have h₁ : arg1fGet (rotateOperands r).flags = .literal := (by decide : arg1fGet 1 = .literal)
  have hin : ∀ x : Word, x.toNat < 39 → InRam (rotateChip v).ram x := fun x hx =>
    inRam_of_lt (Nat.lt_trans hx (by simp [rotateChip])) (Nat.lt_trans hx (by decide))
  refine ⟨.inl h₀, ?_, ?_, ?_, ?_, fun _ => ⟨hin regPc (by decide), ?_, ?_⟩⟩
  · rw [h₀]
    exact hin 0 (by decide)
  · rw [h₁]
    trivial
  · rw [operand1, h₁]
    exact hr
  · rw [h₁]
    exact fun _ _ => List.not_mem_nil
  · rw [h₀]
    exact (by decide : regPc ∉ [(0 : Word)])
  · rw [h₁]
    exact List.not_mem_nil

/-- A rotation by half a word and the same once more. -/
theorem rotations_iff_half :
    Restores emptyHost true .rol .ror (rotateChip 0x12345678) (rotateOperands 16) :=
  (rotations_iff (rotates_cell _ (by decide)) (.inl ⟨rfl, rfl⟩)).mpr (by decide +kernel)

/-- `rol $0, 1` and `ror $0, 1` make 4 out of 1. -/
theorem ror_rotates_left :
    ¬ Restores emptyHost true .rol .ror (rotateChip 1) (rotateOperands 1) := by
  rw [restores_iff (rotates_cell 1 (by decide)) (by decide) (.inl rfl) (.inr rfl)]
  decide

end Vm
