import Mathlib.Data.Nat.Log
import Mathlib.Logic.Function.Basic
import Mathlib.Tactic.Linarith

/-!
# Slots on a ring

Positions `0 .. n-1` on a ring of `n` slots, how far one is ahead of another,
what stands behind an element that was displaced, and the first slot a walk
along the ring accepts. The last part is the usual way of rounding a word up
to a power of two by smearing its highest bit.
-/
namespace Ring

/-- How many steps forward lead from `a` to `b`. -/
def off (n a b : Nat) : Nat := (b + n - a) % n

theorem off_lt {n : Nat} (a b : Nat) (hn : 0 < n) : off n a b < n := Nat.mod_lt _ hn

theorem off_self (n a : Nat) : off n a a = 0 := by simp [off]

/-- The offset is a plain difference, taken around the seam when `b` is behind. -/
theorem off_eq {n a b : Nat} (ha : a < n) (hb : b < n) :
    off n a b = if a ≤ b then b - a else b + n - a := by
  unfold off
  split
  · rw [show b + n - a = b - a + n by omega, Nat.add_mod_right, Nat.mod_eq_of_lt (by omega)]
  · exact Nat.mod_eq_of_lt (by omega)

theorem next_eq {n b : Nat} (hb : b < n) : (b + 1) % n = if b + 1 = n then 0 else b + 1 := by
  split
  · next h => rw [h, Nat.mod_self]
  · exact Nat.mod_eq_of_lt (by omega)

theorem next_lt {n : Nat} (b : Nat) (hn : 0 < n) : (b + 1) % n < n := Nat.mod_lt _ hn

/-- One step forward adds one to the offset, or completes the round. -/
theorem off_next {n a b : Nat} (ha : a < n) (hb : b < n) :
    off n a ((b + 1) % n) = if off n a b + 1 = n then 0 else off n a b + 1 := by
  rw [off_eq ha (next_lt b (by omega)), off_eq ha hb, next_eq hb]
  split_ifs <;> omega

theorem off_next_le {n a b : Nat} (ha : a < n) (hb : b < n) :
    off n a ((b + 1) % n) ≤ off n a b + 1 := by
  rw [off_next ha hb]
  split <;> omega

/-- Seen from the next slot, every other one is a step nearer. -/
theorem off_behind {n a b : Nat} (ha : a < n) (hb : b < n) (hne : a ≠ b) :
    off n a b = off n ((a + 1) % n) b + 1 := by
  rw [off_eq ha hb, off_eq (next_lt a (by omega)) hb, next_eq ha]
  split_ifs <;> omega

theorem off_behind_self {n a : Nat} (ha : a < n) : off n ((a + 1) % n) a = n - 1 := by
  rw [off_eq (next_lt a (by omega)) ha, next_eq ha]
  split_ifs <;> omega

/-- Walking the offset forward arrives. -/
theorem add_off {n a b : Nat} (ha : a < n) (hb : b < n) : (a + off n a b) % n = b := by
  rw [off_eq ha hb]
  split
  · rw [show a + (b - a) = b by omega, Nat.mod_eq_of_lt hb]
  · rw [show a + (b + n - a) = b + n by omega, Nat.add_mod_right, Nat.mod_eq_of_lt hb]

theorem off_add {n a d : Nat} (ha : a < n) (hd : d < n) : off n a ((a + d) % n) = d := by
  have hm : (a + d) % n < n := Nat.mod_lt _ (by omega)
  rw [off_eq ha hm]
  by_cases h : a + d < n
  · rw [Nat.mod_eq_of_lt h]
    split <;> omega
  · have he : (a + d) % n = a + d - n := by
      rw [Nat.mod_eq_sub_mod (by omega), Nat.mod_eq_of_lt (by omega)]
    rw [he]
    split <;> omega

/-- Two slots at one offset from a home are one slot. -/
theorem off_inj {n a b c : Nat} (ha : a < n) (hb : b < n) (hc : c < n)
    (h : off n a b = off n a c) : b = c := by
  rw [← add_off ha hb, h, add_off ha hc]

/-- The slot `d` steps ahead, seen from the next one. -/
theorem next_add (n b d : Nat) : ((b + 1) % n + d) % n = (b + (d + 1)) % n := by
  rw [Nat.mod_add_mod]
  congr 1
  omega

/-- The slot before. -/
def prev (n s : Nat) : Nat := (s + n - 1) % n

theorem prev_next {n b : Nat} (hb : b < n) : prev n ((b + 1) % n) = b := by
  rw [prev, next_eq hb]
  split
  · next h => rw [show 0 + n - 1 = b by omega, Nat.mod_eq_of_lt hb]
  · rw [show b + 1 + n - 1 = b + n by omega, Nat.add_mod_right, Nat.mod_eq_of_lt hb]

theorem prev_lt {n s : Nat} (hs : s < n) : prev n s < n := Nat.mod_lt _ (by omega)

theorem next_prev {n s : Nat} (hs : s < n) : (prev n s + 1) % n = s := by
  rw [next_eq (prev_lt hs), prev]
  by_cases hzero : s = 0
  · rw [hzero, Nat.zero_add, Nat.mod_eq_of_lt (by omega), if_pos (by omega)]
  · rw [show s + n - 1 = s - 1 + n by omega, Nat.add_mod_right, Nat.mod_eq_of_lt (by omega),
      if_neg (by omega)]
    omega

/-- What stands in slot `s`, `d` slots from its home, is at home or has behind it something
that is as far from its own home but for one slot. `T` has the distances, by slot. -/
def Behind (n : Nat) (T : Nat → Option Nat) (s d : Nat) : Prop :=
  0 < d → ∃ e, T (prev n s) = some e ∧ d ≤ e + 1

theorem behind_home (n : Nat) (T : Nat → Option Nat) (s : Nat) : Behind n T s 0 :=
  fun h => absurd h (Nat.lt_irrefl 0)

/-- Filling a slot, or replacing what is there by something further from its home, breaks
no chain. -/
theorem Behind.update {n s d b e : Nat} {T : Nat → Option Nat} (h : Behind n T s d)
    (he : ∀ c, T b = some c → c ≤ e) : Behind n (Function.update T b (some e)) s d := by
  intro hd
  obtain ⟨c, hc, hle⟩ := h hd
  by_cases hb : prev n s = b
  · rw [hb, Function.update_self]
    rw [hb] at hc
    exact ⟨e, rfl, Nat.le_trans hle (Nat.succ_le_succ (he c hc))⟩
  · rw [Function.update_of_ne hb]
    exact ⟨c, hc, hle⟩

/-- One slot on, what stood in the slot before is behind. -/
theorem behind_next {n b d e : Nat} {T : Nat → Option Nat} (hb : b < n) (he : T b = some e)
    (hd : d ≤ e + 1) : Behind n T ((b + 1) % n) d :=
  fun _ => ⟨e, by rw [prev_next hb, he], hd⟩

section Scan

variable (next : Nat → Nat) (p : Nat → Bool)

/-- The first of `k` slots from `s` on that `p` accepts. -/
def scan : Nat → Nat → Option Nat
  | 0, _ => none
  | k + 1, s => if p s then some s else scan k (next s)

/-- All of `k` slots from `s` on that `p` accepts. -/
def hits : Nat → Nat → List Nat
  | 0, _ => []
  | k + 1, s => if p s then s :: hits k (next s) else hits k (next s)

theorem scan_some {k s t : Nat} (h : scan next p k s = some t) : p t = true := by
  induction k generalizing s with
  | zero => simp [scan] at h
  | succ k ih =>
    unfold scan at h
    split at h
    · next hp =>
      cases h
      exact hp
    · exact ih h

variable {n : Nat} (hnext : ∀ s, next s = (s + 1) % n)
include hnext

/-- A walk of `k` steps finds something exactly when it passes an accepted slot. -/
theorem scan_isSome {k s : Nat} (hs : s < n) :
    (scan next p k s).isSome = true ↔ ∃ d < k, p ((s + d) % n) = true := by
  induction k generalizing s with
  | zero => simp [scan]
  | succ k ih =>
    unfold scan
    by_cases hp : p s = true
    · simp only [hp, if_true, Option.isSome_some, true_iff]
      exact ⟨0, by omega, by rwa [Nat.add_zero, Nat.mod_eq_of_lt hs]⟩
    · rw [if_neg hp, hnext, ih (next_lt s (by omega))]
      constructor
      · rintro ⟨d, hd, h⟩
        exact ⟨d + 1, by omega, by rwa [next_add] at h⟩
      · rintro ⟨d, hd, h⟩
        cases d with
        | zero => rw [Nat.add_zero, Nat.mod_eq_of_lt hs] at h; exact absurd h hp
        | succ d => exact ⟨d, by omega, by rwa [next_add]⟩

theorem scan_lt {k s t : Nat} (hs : s < n) (h : scan next p k s = some t) : t < n := by
  induction k generalizing s with
  | zero => simp [scan] at h
  | succ k ih =>
    unfold scan at h
    split at h
    · cases h
      exact hs
    · rw [hnext] at h
      exact ih (next_lt s (by omega)) h

/-- An accepted slot close enough ahead is found, if no other slot is accepted. -/
theorem scan_eq_some {k s t : Nat} (hs : s < n) (ht : t < n) (hk : off n s t < k)
    (hp : p t = true) (huniq : ∀ u < n, p u = true → u = t) : scan next p k s = some t := by
  have hsome := (scan_isSome next p hnext hs).mpr ⟨_, hk, by rwa [add_off hs ht]⟩
  obtain ⟨u, hu⟩ := Option.isSome_iff_exists.mp hsome
  rw [hu, huniq u (scan_lt next p hnext hs hu) (scan_some next p hu)]

theorem scan_eq_none {k s : Nat} (hs : s < n)
    (h : ∀ t < n, off n s t < k → p t = false) : scan next p k s = none := by
  rw [← Option.not_isSome_iff_eq_none, scan_isSome next p hnext hs]
  rintro ⟨d, hd, hp⟩
  have hn : 0 < n := by omega
  have hlt : (s + d) % n < n := Nat.mod_lt _ hn
  have hoff : off n s ((s + d) % n) ≤ d := by
    have he : (s + d) % n = (s + d % n) % n := by simp
    rw [he, off_add hs (Nat.mod_lt _ hn)]
    exact Nat.mod_le _ _
  rw [h _ hlt (by omega)] at hp
  simp at hp

/-- A walk that is not longer than the ring passes each slot once. -/
theorem mem_hits {k s t : Nat} (hk : k ≤ n) (hs : s < n) :
    t ∈ hits next p k s ↔ t < n ∧ off n s t < k ∧ p t = true := by
  induction k generalizing s with
  | zero => simp [hits]
  | succ k ih =>
    have ih := ih (s := next s) (by omega) (by rw [hnext]; exact next_lt s (by omega))
    have hrest : t ∈ hits next p k (next s) ↔ t ≠ s ∧ t < n ∧ off n s t < k + 1 ∧ p t = true := by
      rw [ih, hnext]
      constructor
      · rintro ⟨ht, hlt, hp⟩
        have hne : t ≠ s := by
          rintro rfl
          have := off_behind_self (n := n) ht
          omega
        have := off_behind hs ht hne.symm
        exact ⟨hne, ht, by omega, hp⟩
      · rintro ⟨hne, ht, hlt, hp⟩
        have := off_behind hs ht hne.symm
        exact ⟨ht, by omega, hp⟩
    have hself : off n s s < k + 1 := by rw [off_self]; omega
    rw [hits]
    by_cases hp : p s = true
    · rw [if_pos hp, List.mem_cons, hrest]
      by_cases he : t = s
      · subst he
        simp [hs, hself, hp]
      · simp [he]
    · rw [if_neg hp, hrest]
      refine ⟨fun h => h.2, fun h => ⟨?_, h⟩⟩
      rintro rfl
      exact hp h.2.2

theorem nodup_hits {k s : Nat} (hk : k ≤ n) (hs : s < n) : (hits next p k s).Nodup := by
  induction k generalizing s with
  | zero => exact List.nodup_nil
  | succ k ih =>
    have hlt : next s < n := by
      rw [hnext]
      exact next_lt s (by omega)
    have hrest := ih (by omega) hlt
    rw [hits]
    split
    · refine List.nodup_cons.mpr ⟨fun hmem => ?_, hrest⟩
      obtain ⟨_, hoff, _⟩ := (mem_hits next p hnext (by omega) hlt).mp hmem
      rw [hnext, off_behind_self hs] at hoff
      omega
    · exact hrest

end Scan

section Smear

variable {w : Nat}

/-- Bit `i` of `y` says whether `x` has a bit in the window `i .. i+n-1`. -/
def Window (x y : BitVec w) (n : Nat) : Prop :=
  ∀ i, y.getLsbD i = true ↔ ∃ j, i ≤ j ∧ j < i + n ∧ x.getLsbD j = true

theorem window_self (x : BitVec w) : Window x x 1 := by
  intro i
  constructor
  · exact fun h => ⟨i, by omega, by omega, h⟩
  · rintro ⟨j, h₁, h₂, h⟩
    rwa [show i = j by omega]

/-- Or-ing in a copy shifted by the window's width doubles the window. -/
theorem window_double {x y : BitVec w} {n m : Nat} (h : Window x y n) (hm : m = n + n) :
    Window x (y ||| y >>> n) m := by
  subst hm
  intro i
  rw [BitVec.getLsbD_or, BitVec.getLsbD_ushiftRight, Bool.or_eq_true, h i, h (n + i)]
  constructor
  · rintro (⟨j, h₁, h₂, hx⟩ | ⟨j, h₁, h₂, hx⟩)
    · exact ⟨j, h₁, by omega, hx⟩
    · exact ⟨j, by omega, by omega, hx⟩
  · rintro ⟨j, h₁, h₂, hx⟩
    by_cases hj : j < i + n
    · exact .inl ⟨j, h₁, hj, hx⟩
    · exact .inr ⟨j, by omega, by omega, hx⟩

/-- A window as wide as the word turns `v` into the ones up to its highest bit. -/
theorem window_full {v : Nat} {y : BitVec 32} (hv : v ≠ 0) (hlt : v < 2 ^ 31)
    (h : Window (BitVec.ofNat 32 v) y 32) : y = BitVec.ofNat 32 (2 ^ (v.log2 + 1) - 1) := by
  have hlog : v.log2 < 31 := (Nat.log2_lt hv).mpr hlt
  apply BitVec.eq_of_getLsbD_eq
  intro i hi
  rw [Bool.eq_iff_iff, h i]
  simp only [BitVec.getLsbD_ofNat, Bool.and_eq_true, decide_eq_true_eq, hi, true_and,
    Nat.testBit_two_pow_sub_one]
  constructor
  · rintro ⟨j, hij, _, hj, hb⟩
    have : 2 ^ j ≤ v := Nat.ge_two_pow_of_testBit hb
    have : j ≤ v.log2 := (Nat.le_log2 hv).mpr this
    omega
  · intro hle
    refine ⟨v.log2, by omega, by omega, by omega, ?_⟩
    exact Nat.testBit_log2 hv

end Smear

end Ring
