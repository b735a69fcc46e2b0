import Chip32.Rbhash
import Mathlib.Algebra.BigOperators.Group.Finset.Basic
import Mathlib.Algebra.Order.BigOperators.Group.Multiset
import Mathlib.Tactic.Abel

/-!
# What a table holds and where

The content of a table is the multiset of its live entries, an element with
`len = 0` holding none. Moving elements about keeps the content; an element is
findable because its slot is never further from its home than `maxdistance`.
-/
namespace Rbhash

variable {δ : Type}

/-- What a live element stands for. -/
@[ext] structure Entry (δ : Type) where
  key : List Byte
  hash : BitVec 32
  data : Option δ

def Element.entry (e : Element δ) : Entry δ := ⟨e.bytes e.len, e.hash, e.data⟩

def held (e : Element δ) : Multiset (Entry δ) := if e.len = 0 then 0 else {e.entry}

/-- The content of a table of `size` slots. -/
def entries (size : Nat) (table : Nat → Element δ) : Multiset (Entry δ) :=
  ∑ s ∈ Finset.range size, held (table s)

theorem held_empty {e : Element δ} (h : e.len = 0) : held e = 0 := by simp [held, h]

theorem held_live {e : Element δ} (h : e.len ≠ 0) : held e = {e.entry} := by simp [held, h]

theorem mem_held {e : Element δ} {en : Entry δ} : en ∈ held e ↔ e.len ≠ 0 ∧ e.entry = en := by
  by_cases h : e.len = 0
  · simp [held, h]
  · simp [held, h, eq_comm]

theorem mem_entries {size : Nat} {table : Nat → Element δ} {en : Entry δ} :
    en ∈ entries size table ↔ ∃ s < size, (table s).len ≠ 0 ∧ (table s).entry = en := by
  simp only [entries, Multiset.mem_sum, Finset.mem_range, mem_held]

/-- Overwriting one slot exchanges what it held. -/
theorem entries_update {size s : Nat} (table : Nat → Element δ) (e : Element δ) (hs : s < size) :
    entries size (Function.update table s e) + held (table s) = entries size table + held e := by
  have hmem : s ∈ Finset.range size := Finset.mem_range.mpr hs
  have hrest : ∑ i ∈ (Finset.range size).erase s, held (Function.update table s e i) =
      ∑ i ∈ (Finset.range size).erase s, held (table i) := by
    refine Finset.sum_congr rfl fun i hi => ?_
    rw [Function.update_of_ne (Finset.ne_of_mem_erase hi)]
  unfold entries
  rw [← Finset.add_sum_erase _ _ hmem, ← Finset.add_sum_erase _ (fun i => held (table i)) hmem,
    hrest, Function.update_self]
  abel

theorem entries_update_empty {size s : Nat} (table : Nat → Element δ) (e : Element δ)
    (hs : s < size) (h : (table s).len = 0) :
    entries size (Function.update table s e) = held e + entries size table := by
  have hu := entries_update table e hs
  rwa [held_empty h, add_zero, add_comm (entries size table)] at hu

theorem entries_clear (size : Nat) (stale : Nat → Element δ) :
    entries size (clear size stale) = 0 := by
  refine Finset.sum_eq_zero fun s hs => ?_
  simp [clear, Finset.mem_range.mp hs, held]

theorem entries_eq_sum_map (size : Nat) (table : Nat → Element δ) :
    entries size table = (((List.range size).map table).map held).sum := by
  unfold entries
  induction size with
  | zero => simp
  | succ n ih => simp [Finset.sum_range_succ, List.range_succ, ih]

/-- A table with fewer entries than slots has an empty slot. -/
theorem exists_empty {size : Nat} {table : Nat → Element δ}
    (h : Multiset.card (entries size table) < size) : ∃ s < size, (table s).len = 0 := by
  by_contra hno
  push Not at hno
  have hcard : Multiset.card (entries size table) = size := by
    have hone : ∀ s ∈ Finset.range size, Multiset.card (held (table s)) = 1 := by
      intro s hs
      simp [held_live (hno s (Finset.mem_range.mp hs))]
    rw [entries, Multiset.card_sum, Finset.sum_congr rfl hone]
    simp
  omega

/-- With distinct keys, a key is live in one slot only. -/
theorem slot_unique {size s t : Nat} {table : Nat → Element δ}
    (hn : ((entries size table).map Entry.key).Nodup) (hs : s < size) (ht : t < size)
    (hsl : (table s).len ≠ 0) (htl : (table t).len ≠ 0)
    (he : (table s).entry.key = (table t).entry.key) : s = t := by
  by_contra hne
  have hsm : s ∈ Finset.range size := Finset.mem_range.mpr hs
  have htm : t ∈ (Finset.range size).erase s :=
    Finset.mem_erase.mpr ⟨Ne.symm hne, Finset.mem_range.mpr ht⟩
  have hsplit : entries size table =
      held (table s) + (held (table t) +
        ∑ i ∈ ((Finset.range size).erase s).erase t, held (table i)) := by
    rw [Finset.add_sum_erase _ (fun i => held (table i)) htm,
      Finset.add_sum_erase _ (fun i => held (table i)) hsm, entries]
  rw [hsplit, held_live hsl, held_live htl] at hn
  simp [he] at hn

/-- The sizes a table can have. -/
def PowTwo (n : Nat) : Prop := ∃ k ≤ 31, n = 2 ^ k

theorem PowTwo.pos {n : Nat} (h : PowTwo n) : 0 < n := by
  obtain ⟨k, _, rfl⟩ := h
  exact Nat.two_pow_pos k

theorem PowTwo.le {n : Nat} (h : PowTwo n) : n ≤ 2 ^ 31 := by
  obtain ⟨k, hk, rfl⟩ := h
  exact Nat.pow_le_pow_right (by omega) hk

theorem slot_eq_mod {n : Nat} (h : PowTwo n) (i : Nat) : slot i n = i % n := by
  obtain ⟨k, _, rfl⟩ := h
  exact Nat.and_two_pow_sub_one_eq_mod i k

theorem slot_lt {n : Nat} (h : PowTwo n) (i : Nat) : slot i n < n := by
  rw [slot_eq_mod h]
  exact Nat.mod_lt _ h.pos

theorem slotNext_eq {n : Nat} (h : PowTwo n) (s : Nat) : slotNext n s = (s + 1) % n :=
  slot_eq_mod h (s + 1)

theorem slotNext_lt {n : Nat} (h : PowTwo n) (s : Nat) : slotNext n s < n := slot_lt h (s + 1)

/-- The macro rounds up as its name says, as long as the result is a 32-bit word. -/
theorem roundUpPowTwo32_spec {n : Nat} (h₁ : 1 ≤ n) (h₂ : n ≤ 2 ^ 31) :
    PowTwo (roundUpPowTwo32 n) ∧ n ≤ roundUpPowTwo32 n := by
  obtain ⟨v, rfl⟩ : ∃ v, n = v + 1 := ⟨n - 1, by omega⟩
  by_cases hv : v = 0
  · subst hv
    exact ⟨⟨0, by omega, by decide⟩, by decide⟩
  · have hone : (1 : BitVec 32).toNat = 1 := rfl
    have hx : BitVec.ofNat 32 (v + 1) - 1 = BitVec.ofNat 32 v := by
      apply BitVec.eq_of_toNat_eq
      simp only [BitVec.toNat_sub, BitVec.toNat_ofNat, hone]
      omega
    have hw := Ring.window_double (Ring.window_double (Ring.window_double (Ring.window_double
      (Ring.window_double (Ring.window_self (BitVec.ofNat 32 v)) (m := 2) rfl) (m := 4) rfl)
      (m := 8) rfl) (m := 16) rfl) (m := 32) rfl
    have hlog : v.log2 < 31 := (Nat.log2_lt hv).mpr (by omega)
    have hpow : 2 ^ (v.log2 + 1) ≤ 2 ^ 31 := Nat.pow_le_pow_right (by omega) (by omega)
    have hpos : 0 < 2 ^ (v.log2 + 1) := Nat.two_pow_pos _
    have hr : roundUpPowTwo32 (v + 1) = 2 ^ (v.log2 + 1) := by
      simp only [roundUpPowTwo32, hx, Ring.window_full hv (by omega) hw]
      simp only [BitVec.toNat_add, BitVec.toNat_ofNat, hone]
      omega
    rw [hr]
    exact ⟨⟨v.log2 + 1, by omega, rfl⟩, Nat.lt_log2_self⟩

end Rbhash
