import Chip32.Vm
import Mathlib.Tactic.Common

/-!
# RAM cells

The laws of reading and writing cells. Cell numbers are signed, so a cell that
exists is its number's unsigned value too.
-/
namespace Vm

section Cells

variable {ram : List Word} {r s v : Word}

@[simp] theorem inRam_set (i : Nat) : InRam (ram.set i v) r ↔ InRam ram r := by
  simp [InRam]

theorem cell_set_self (hr : InRam ram r) : cell (ram.set r.toNat v) r = v := by
  obtain ⟨h₀, hlt⟩ := hr
  have hn : r.toNat < ram.length := by
    rw [BitVec.toInt_eq_toNat_cond] at h₀ hlt
    have := r.isLt
    split at hlt <;> omega
  simp [cell, List.getD_eq_getElem?_getD, List.getElem?_set_self hn]

theorem cell_set_ne (hne : r ≠ s) : cell (ram.set r.toNat v) s = cell ram s := by
  have hn : r.toNat ≠ s.toNat := fun he => hne (BitVec.eq_of_toNat_eq he)
  simp [cell, List.getD_eq_getElem?_getD, List.getElem?_set_ne hn]

theorem inRam_of_lt (h : r.toNat < ram.length) (h' : r.toNat < 2 ^ 31) : InRam ram r := by
  rw [InRam, BitVec.toInt_eq_toNat_of_lt (by omega)]
  omega

theorem toNat_of_nonneg (h : 0 ≤ r.toInt) : r.toInt = r.toNat := by
  rw [BitVec.toInt_eq_toNat_cond] at *
  have := r.isLt
  split at h <;> omega

theorem cell_of_drop {w : Word} {l : List Word} (h : ram.drop r.toNat = w :: l) :
    cell ram r = w := by
  have hw : (ram.drop r.toNat)[0]? = some w := by rw [h]; rfl
  rw [List.getElem?_drop, Nat.add_zero] at hw
  simp [cell, List.getD_eq_getElem?_getD, hw]

theorem drop_set_self {l : List Word} {i : Nat} (h : i < l.length) :
    (l.set i v).drop i = v :: l.drop (i + 1) := by
  rw [List.drop_eq_getElem_cons (by simpa using h), List.drop_set_of_lt (by omega)]
  simp

theorem inRam_reg (hsize : 36 ≤ ram.length) (h : r.toNat < 36) : InRam ram r :=
  inRam_of_lt (by omega) (by omega)

end Cells

section Accesses

variable {c d : Chip} {r v : Word}

theorem load_eq_ok : load c r = .ok v ↔ InRam c.ram r ∧ cell c.ram r = v := by
  unfold load
  split <;> simp [*]

theorem store_eq_ok :
    store c r v = .ok d ↔ InRam c.ram r ∧ { c with ram := c.ram.set r.toNat v } = d := by
  unfold store
  split <;> simp [*]

theorem load_ok (hr : InRam c.ram r) : load c r = .ok (cell c.ram r) := if_pos hr

theorem store_ok (hr : InRam c.ram r) :
    store c r v = .ok { c with ram := c.ram.set r.toNat v } := if_pos hr

theorem execute_ok {h : Host} {pcmd q : Command}
    (hc : commands (.ofCode pcmd.cmd) h c pcmd = .ok (d, q)) (hp : InRam d.ram regPc) :
    execute h c pcmd =
      .ok ({ d with ram := d.ram.set regPc.toNat (cell d.ram regPc + 1) }, q) := by
  simp only [execute, hc, load_ok hp, store_ok hp, Runs.ok_bind, Runs.pure_ok]

/-- Fresh memory with the registers `initr` sets. -/
def initRam (size : Word) (words : Nat → Word) : List Word :=
  ((((List.range size.toNat).map words).set regPc.toNat 1).set regStk.toNat (size - 1)).set
    regFrm.toNat (size - 1)

theorem initr_ok {h : Host} (pcmd : Command) {words : Nat → Word} (hram : c.ram = [])
    (hm : h.malloc pcmd.arg0 = some words) (hsize : 35 ≤ pcmd.arg0.toNat) :
    cmdInitr h c pcmd =
      .ok ({ c with ramsize := pcmd.arg0, ram := initRam pcmd.arg0 words }, pcmd) := by
  have hz : pcmd.arg0 ≠ 0 := by
    intro hz
    rw [hz] at hsize
    exact absurd hsize (by decide)
  have hin : ∀ r : Word, r.toNat < 35 → InRam ((List.range pcmd.arg0.toNat).map words) r :=
    fun r hr => inRam_of_lt (by simp; omega) (by omega)
  have hset : initRegisters { c with
      ramsize := pcmd.arg0, ram := (List.range pcmd.arg0.toNat).map words } =
      .ok { c with ramsize := pcmd.arg0, ram := initRam pcmd.arg0 words } := by
    simp only [initRegisters]
    rw [store_ok (hin regPc (by decide)), Runs.ok_bind,
      store_ok (by simpa using hin regStk (by decide)), Runs.ok_bind,
      store_ok (by simpa using hin regFrm (by decide))]
    rfl
  simp only [cmdInitr, hram, ne_eq, not_true_eq_false, if_false, hz, hm]
  exact congrArg (· >>= fun d => pure (d, pcmd)) hset

end Accesses

end Vm
