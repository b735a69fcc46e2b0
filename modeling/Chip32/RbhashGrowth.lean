import Chip32.RbhashWalk
import Mathlib.Algebra.Order.BigOperators.Group.Finset

/-!
# Placing an element and growing

What `rbhash_add_hash` and `rbhash_upsize` do to any table at all. The new element is
placed first; the growth that may follow takes along what has a first byte.
-/
namespace Rbhash

variable {δ : Type}

/-- Everything about a table but what it contains. -/
def SameKind (t u : Hash δ) : Prop :=
  u.hashing = t.hashing ∧ u.keySize = t.keySize ∧ u.min = t.min ∧ u.del = t.del

theorem SameKind.refl (t : Hash δ) : SameKind t t := ⟨rfl, rfl, rfl, rfl⟩

theorem SameKind.trans {t u v : Hash δ} (h : SameKind t u) (h' : SameKind u v) : SameKind t v :=
  ⟨h'.1.trans h.1, h'.2.1.trans h.2.1, h'.2.2.1.trans h.2.2.1, h'.2.2.2.trans h.2.2.2⟩

/-- The size asked for when the next new key makes the table grow. -/
def SizesFit (t : Hash δ) : Prop :=
  t.min ≠ 0 → t.size ≤ t.count + 1 + spare t → t.size + spare t ≤ 2 ^ 31

instance (t : Hash δ) : Decidable (SizesFit t) := inferInstanceAs (Decidable (_ → _ → _))

theorem card_entries_le (size : Nat) (table : Nat → Element δ) :
    Multiset.card (entries size table) ≤ size := by
  have hone : ∀ s ∈ Finset.range size, Multiset.card (held (table s)) ≤ 1 := by
    intro s _
    unfold held
    split <;> simp
  have hsum := Finset.sum_le_sum hone
  rw [entries, Multiset.card_sum]
  simpa using hsum

theorem reach_clear (size : Nat) (stale : Nat → Element δ) (hn : 0 < size) :
    Reach size (clear size stale) 0 :=
  ⟨fun s hs hl => absurd (by simp [clear, hs]) hl, hn⟩

/-- The new table has room for all of the old one, takes along what has a first byte, and
is in reach whatever the old one was. -/
theorem upsize_grown (t : Hash δ) (stale : Nat → Element δ) (hgrow : t.size ≤ t.count + spare t)
    (hfit : t.size + spare t ≤ 2 ^ 31) :
    ∃ u, upsize t (some stale) = .ok (0, u) ∧ SameKind t u ∧ u.count = t.count ∧
      PowTwo u.size ∧ t.size < u.size ∧ Reach u.size u.table u.maxdistance ∧
      entries u.size u.table = (entries t.size t.table).filter Entry.Keyed := by
  have hpos : 0 < spare t := by simp [spare]
  obtain ⟨hp, hle⟩ := roundUpPowTwo32_spec (n := t.size + spare t) (by omega) hfit
  unfold upsize
  rw [if_neg (by omega)]
  simp only
  generalize roundUpPowTwo32 (t.size + spare t) = newsize at hp hle
  obtain ⟨acc, hrun, hc, hr⟩ := rehash_run ((List.range t.size).map t.table)
    (clear newsize stale, 0) hp (reach_clear newsize stale hp.pos)
    (by simp only [entries_clear, Multiset.card_zero, List.length_map, List.length_range]; omega)
  rw [entries_clear, add_zero, ← entries_eq_sum_map] at hc
  exact ⟨{ t with table := acc.1, size := newsize, maxdistance := acc.2 }, by simp [hrun],
    ⟨rfl, rfl, rfl, rfl⟩, rfl, hp, by simp only; omega, hr, hc⟩

theorem held_fill {key : List Byte} (el : Element δ) (hash : BitVec 32) (data : Option δ)
    (hk : key ≠ []) (hshort : key.length < 2 ^ 32) :
    held (el.fill hash key data) = {⟨key, hash, data⟩} := by
  have hlen : (el.fill hash key data).len = key.length := Nat.mod_eq_of_lt hshort
  have hne : key.length ≠ 0 := by simpa using hk
  have hb : (el.fill hash key data).bytes key.length = key := by
    refine List.ext_getElem (by simp [Element.bytes]) fun i h₁ h₂ => ?_
    simp [Element.bytes, Element.fill, h₂]
  rw [held_live (by omega), Element.entry, hlen, hb]
  rfl

/-- The table with the new element in it, as `rbhash_upsize` gets it. -/
def placed (t : Hash δ) (acc : (Nat → Element δ) × Nat) : Hash δ :=
  { t with table := acc.1, maxdistance := acc.2, count := t.count + 1 }

/-- The next element makes the table grow. -/
def Grows (t : Hash δ) : Prop := t.min ≠ 0 ∧ t.size ≤ t.count + 1 + spare t

instance (t : Hash δ) : Decidable (Grows t) := inferInstanceAs (Decidable (_ ∧ _))

theorem room_of_not_grows {t : Hash δ} (hm : t.min ≠ 0) (hg : ¬ Grows t) :
    t.count + 1 + spare t < t.size := by
  by_contra hge
  exact hg ⟨hm, Nat.not_lt.mp hge⟩

section Placing

variable {t : Hash δ} {hash : BitVec 32} {key : List Byte} {data : Option δ} {a : Alloc δ}
  {el : Element δ} {acc : (Nat → Element δ) × Nat}

theorem placed_sameKind : SameKind t (placed t acc) := ⟨rfl, rfl, rfl, rfl⟩

/-- What is refused before anything is placed. -/
theorem addHash_refused (h : t.keySize < key.length ∨ a.el = none) :
    addHash t hash key data a = .ok (-1, t) := by
  unfold addHash
  by_cases hlen : t.keySize < key.length
  · exact if_pos hlen
  · rw [if_neg hlen, h.resolve_left hlen]

/-- What becomes of the placed element. -/
theorem addHash_eq (hlen : key.length ≤ t.keySize) (hel : a.el = some el) :
    addHash t hash key data a =
      swapdown t.size t.table t.maxdistance (el.fill hash key data) >>= fun acc =>
        if Grows t then upsize (placed t acc) a.newtable else .ok (0, placed t acc) := by
  unfold addHash
  rw [if_neg (Nat.not_lt.mpr hlen), hel]
  refine bind_congr fun acc => ?_
  by_cases hg : Grows t
  · rw [if_pos hg]
    exact if_pos hg.1
  · rw [if_neg hg]
    by_cases hm : t.min = 0
    · exact if_neg (not_not.mpr hm)
    · exact (if_pos hm).trans (if_pos (room_of_not_grows hm hg))

theorem upsize_failed (hg : Grows t) : upsize (placed t acc) none = .ok (-1, placed t acc) := by
  have hge : ¬ (placed t acc).count + spare (placed t acc) < (placed t acc).size :=
    Nat.not_lt.mpr hg.2
  unfold upsize
  rw [if_neg hge]

theorem upsize_placed (acc : (Nat → Element δ) × Nat) (hg : Grows t) (hs : SizesFit t)
    (stale : Nat → Element δ) :
    ∃ u, upsize (placed t acc) (some stale) = .ok (0, u) ∧ SameKind t u ∧ u.count = t.count + 1 ∧
      PowTwo u.size ∧ t.size < u.size ∧ Reach u.size u.table u.maxdistance ∧
      entries u.size u.table = (entries t.size acc.1).filter Entry.Keyed :=
  upsize_grown (placed t acc) stale hg.2 (hs hg.1 hg.2)

/-- With a free slot, a key that is not empty, and where the table grows all keys with a
first byte, the entry is stored and nothing is lost. -/
theorem addHash_stored (hash : BitVec 32) (data : Option δ) (hp : PowTwo t.size)
    (hr : Reach t.size t.table t.maxdistance)
    (hroom : ∃ s < t.size, (t.table s).len = 0) (hlen : key.length ≤ t.keySize)
    (hel : a.el = some el) (hk : key ≠ []) (hshort : key.length < 2 ^ 32) (hs : SizesFit t)
    (hgrow : Grows t → a.newtable ≠ none ∧ key.getD 0 0 ≠ 0 ∧
      ∀ en ∈ entries t.size t.table, en.Keyed) :
    ∃ u, addHash t hash key data a = .ok (0, u) ∧ SameKind t u ∧ u.count = t.count + 1 ∧
      PowTwo u.size ∧ Reach u.size u.table u.maxdistance ∧
      (t.min ≠ 0 → t.count < t.size → u.count < u.size) ∧
      entries u.size u.table = {⟨key, hash, data⟩} + entries t.size t.table := by
  obtain ⟨acc, hacc⟩ := swapdown_free t.maxdistance (el.fill hash key data) hp hroom
  have hc := swapdown_content hp hacc
  rw [held_fill el hash data hk hshort] at hc
  rw [addHash_eq hlen hel, hacc, Runs.ok_bind]
  by_cases hg : Grows t
  · obtain ⟨htable, hfirst, hkeyed⟩ := hgrow hg
    obtain ⟨stale, hstale⟩ := Option.ne_none_iff_exists'.mp htable
    obtain ⟨u, hup, hkind, hcount, hpu, hlt, hru, he⟩ := upsize_placed acc hg hs stale
    rw [if_pos hg, hstale]
    refine ⟨u, hup, hkind, hcount, hpu, hru, fun _ hle => by omega, he.trans ?_⟩
    rw [hc]
    exact filter_keyed_add hfirst hkeyed
  · rw [if_neg hg]
    refine ⟨_, rfl, placed_sameKind, rfl, hp, swapdown_reach hp hr rfl hacc hroom, fun hm _ => ?_, hc⟩
    have hlt := room_of_not_grows hm hg
    simp only [placed]
    omega

end Placing

end Rbhash
