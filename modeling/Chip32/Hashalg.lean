import Chip32.Mixing
import Mathlib.Data.Fintype.EquivFin
import Mathlib.Data.List.TakeWhile
import Mathlib.Tactic.Ring

/-!
# The hash functions of `hashalg.c`

A key is the list of its bytes; a `char` is signed. A key is shorter than `2 ^ 32` bytes, so
that the 32-bit counters of the loops reach its end.
-/
namespace Hashalg

open Function Mixing

abbrev Byte := BitVec 8

/-- A `char` in a sum of `uint32_t`s. -/
def char (b : Byte) : BitVec 32 := b.signExtend 32

/-- `g16b`: two bytes, the low one first. -/
def g16b (lo hi : Byte) : BitVec 32 := lo.setWidth 32 ||| hi.setWidth 32 <<< 8

/-- The body of its loop over four bytes. -/
def fasthashBlock (hash : BitVec 32) (b₀ b₁ b₂ b₃ : Byte) : BitVec 32 :=
  let hash := hash + g16b b₀ b₁
  let part := g16b b₂ b₃ <<< 11
  let tmp := part ^^^ hash
  let hash := hash <<< 16 ^^^ tmp
  hash + hash >>> 11

/-- The loop, and the `switch` over what is left. -/
def fasthashLoop : BitVec 32 → List Byte → BitVec 32
  | hash, b₀ :: b₁ :: b₂ :: b₃ :: data => fasthashLoop (fasthashBlock hash b₀ b₁ b₂ b₃) data
  | hash, [b₀, b₁, b₂] =>
    let hash := hash + g16b b₀ b₁
    let hash := hash ^^^ hash <<< 16
    let hash := hash ^^^ char b₂ <<< 18
    hash + hash >>> 11
  | hash, [b₀, b₁] =>
    let hash := hash + g16b b₀ b₁
    let hash := hash ^^^ hash <<< 11
    hash + hash >>> 17
  | hash, [b₀] =>
    let hash := hash + char b₀
    let hash := hash ^^^ hash <<< 10
    hash + hash >>> 1
  | hash, [] => hash

/-- `hash_fasthash`. -/
def hashFasthash (data : List Byte) : BitVec 32 :=
  let hash := fasthashLoop (.ofNat 32 data.length) data
  let hash := hash ^^^ hash <<< 3
  let hash := hash + hash >>> 5
  let hash := hash ^^^ hash <<< 4
  let hash := hash + hash >>> 17
  let hash := hash ^^^ hash <<< 25
  hash + hash >>> 6

/-- `hash_sobel`. -/
def hashSobel (str : List Byte) : BitVec 32 :=
  str.foldl (fun hash b => hash ^^^ (hash <<< 5 + char b + hash >>> 2)) 1315423911

/-- The body of the loop of `hash_weinberger`. -/
def weinbergerStep (hash : BitVec 32) (b : Byte) : BitVec 32 :=
  let hash := hash <<< 4 + char b
  let test := hash &&& 0xF0000000
  if test ≠ 0 then (hash ^^^ test >>> 24) &&& ~~~0xF0000000 else hash

/-- `hash_weinberger`. -/
def hashWeinberger (str : List Byte) : BitVec 32 := str.foldl weinbergerStep 0

/-- The body of the loop of `hash_elf`. -/
def elfStep (hash : BitVec 32) (b : Byte) : BitVec 32 :=
  let hash := hash <<< 4 + char b
  let x := hash &&& 0xF0000000
  let hash := if x ≠ 0 then hash ^^^ x >>> 24 else hash
  hash &&& ~~~x

/-- `hash_elf`. -/
def hashElf (str : List Byte) : BitVec 32 := str.foldl elfStep 0

/-- `hash_partow`, the loop from the counter `i` on. -/
def partowLoop : Nat → BitVec 32 → List Byte → BitVec 32
  | _, hash, [] => hash
  | i, hash, b :: str =>
    let x := if i % 2 = 0 then hash <<< 7 ^^^ char b * hash >>> 3
      else ~~~(hash <<< 11 + (char b ^^^ hash >>> 5))
    partowLoop (i + 1) (hash ^^^ x) str

def hashPartow (str : List Byte) : BitVec 32 := partowLoop 0 0xAAAAAAAA str

/-- `hash_int`. -/
def hashInt (key : BitVec 32) : BitVec 32 :=
  let x := (key >>> 16 ^^^ key) * 0x45d9f3b
  let x := (x >>> 16 ^^^ x) * 0x45d9f3b
  x >>> 16 ^^^ x

/-- `hash64_splitmix`. -/
def hash64Splitmix (x : BitVec 64) : BitVec 64 :=
  let x := (x ^^^ x >>> 30) * 0xBF58476D1CE4E5B9
  let x := (x ^^^ x >>> 27) * 0x94D049BB133111EB
  x ^^^ x >>> 31

/-- The high bits folded back on the low ones. -/
def folded (hash : BitVec 32) : BitVec 32 :=
  (hash ^^^ (hash &&& 0xF0000000) >>> 24) &&& 0x0FFFFFFF

theorem getLsbD_high {i : Nat} (hi : i < 32) :
    (0xF0000000 : BitVec 32).getLsbD i = decide (28 ≤ i) := by
  have hall : ∀ i : Fin 32, (0xF0000000 : BitVec 32).getLsbD i = decide (28 ≤ i.val) := by decide
  exact hall ⟨i, hi⟩

theorem getLsbD_low {i : Nat} (hi : i < 32) :
    (0x0FFFFFFF : BitVec 32).getLsbD i = decide (i < 28) := by
  have hall : ∀ i : Fin 32, (0x0FFFFFFF : BitVec 32).getLsbD i = decide (i.val < 28) := by decide
  exact hall ⟨i, hi⟩

theorem folded_low {hash : BitVec 32} (h : hash &&& 0xF0000000 = 0) : folded hash = hash := by
  rw [folded, h]
  apply BitVec.eq_of_getLsbD_eq
  intro i hi
  have hbit := congrArg (fun z : BitVec 32 => z.getLsbD i) h
  simp only [BitVec.getLsbD_and, getLsbD_high hi] at hbit
  simp only [BitVec.getLsbD_and, BitVec.getLsbD_xor, getLsbD_low hi, BitVec.getLsbD_ushiftRight]
  by_cases hlow : i < 28
  · simp [hlow]
  · simpa [hlow, Nat.not_lt.mp hlow] using hbit.symm

/-- Of the high bits, those that are set are cleared. -/
theorem folded_without (hash : BitVec 32) :
    (hash ^^^ (hash &&& 0xF0000000) >>> 24) &&& ~~~(hash &&& 0xF0000000) = folded hash := by
  rw [folded]
  apply BitVec.eq_of_getLsbD_eq
  intro i hi
  simp only [BitVec.getLsbD_and, BitVec.getLsbD_not, BitVec.getLsbD_xor, getLsbD_high hi,
    getLsbD_low hi, BitVec.getLsbD_ushiftRight, hi, decide_true, Bool.true_and]
  by_cases hlow : i < 28
  · simp [hlow, Nat.not_le.mpr hlow]
  · rw [BitVec.getLsbD_of_ge hash (24 + i) (by omega)]
    simp [hlow, Nat.not_lt.mp hlow]

theorem weinbergerStep_eq (hash : BitVec 32) (b : Byte) :
    weinbergerStep hash b = folded (hash <<< 4 + char b) := by
  by_cases hz : (hash <<< 4 + char b) &&& 0xF0000000 = 0
  · rw [folded_low hz, weinbergerStep, if_neg (not_not.mpr hz)]
  · rw [weinbergerStep, if_pos hz]
    rfl

theorem elfStep_eq (hash : BitVec 32) (b : Byte) :
    elfStep hash b = folded (hash <<< 4 + char b) := by
  by_cases hz : (hash <<< 4 + char b) &&& 0xF0000000 = 0
  · simp only [elfStep, hz, ne_eq, not_true_eq_false, if_false, folded_low hz]
    exact BitVec.and_allOnes
  · simp only [elfStep, hz, ne_eq, not_false_eq_true, if_true]
    exact folded_without _

theorem folded_lt (hash : BitVec 32) : (folded hash).toNat < 2 ^ 28 := by
  rw [folded, BitVec.toNat_and]
  exact Nat.lt_of_le_of_lt Nat.and_le_right (by decide)

/-- `hash_elf` and `hash_weinberger` are one function, and its hashes have 28 bits. -/
theorem elf_eq_weinberger (key : List Byte) :
    hashElf key = hashWeinberger key ∧ (hashElf key).toNat < 2 ^ 28 := by
  have hsame : elfStep = weinbergerStep := by
    funext hash b
    rw [elfStep_eq, weinbergerStep_eq]
  refine ⟨by rw [hashElf, hashWeinberger, hsame], ?_⟩
  obtain rfl | ⟨front, last, rfl⟩ := key.eq_nil_or_concat
  · decide
  · rw [List.concat_eq_append, hashElf, List.foldl_append, List.foldl_cons, List.foldl_nil, elfStep_eq]
    exact folded_lt _

/-- One round: XOR with a right shift, then an odd factor. -/
theorem round_injective {w k : Nat} (hk : 0 < k) {m : BitVec w} (hm : Odd m.toNat) :
    Injective fun x : BitVec w => (x ^^^ x >>> k) * m :=
  (mul_odd_injective hm).comp (xor_shiftRight_injective hk)

theorem hashInt_injective : Injective hashInt := by
  have hround : Injective fun x : BitVec 32 => (x ^^^ x >>> 16) * 0x45d9f3b :=
    round_injective (by decide) (by decide)
  have hlast : Injective fun x : BitVec 32 => x ^^^ x >>> 16 := xor_shiftRight_injective (by decide)
  intro x y h
  have hswap : ∀ z : BitVec 32, z >>> 16 ^^^ z = z ^^^ z >>> 16 := fun z => BitVec.xor_comm _ _
  simp only [hashInt, hswap] at h
  exact hround (hround (hlast h))

theorem splitmix_injective : Injective hash64Splitmix := by
  have hfirst : Injective fun x : BitVec 64 => (x ^^^ x >>> 30) * 0xBF58476D1CE4E5B9 :=
    round_injective (by decide) (by decide)
  have hsecond : Injective fun x : BitVec 64 => (x ^^^ x >>> 27) * 0x94D049BB133111EB :=
    round_injective (by decide) (by decide)
  exact (xor_shiftRight_injective (by decide)).comp (hsecond.comp hfirst)

/-- No two integers have the same hash, and every word is the hash of one. -/
theorem hash_permutes : Bijective hashInt ∧ Bijective hash64Splitmix :=
  ⟨Finite.injective_iff_bijective.mp hashInt_injective,
    Finite.injective_iff_bijective.mp splitmix_injective⟩

end Hashalg
