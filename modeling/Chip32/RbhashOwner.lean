import Chip32.RbhashAdd
import Chip32.RbhashRemove

/-!
# Growth and release

`rbhash_upsize` and `rbhash_free` take a slot whose key begins with a zero for an empty
one, while every other function looks at the length. What a table holds survives its
growth, and is released at its end, as far as the two agree.
-/
namespace Rbhash

variable {δ : Type}

/-- `rbhash_find_hash` answers for the entry, with its data if no other one has its key
and hash. -/
def Found (u : Hash δ) (en : Entry δ) : Prop :=
  (findBucket u en.hash en.key).isSome ∧ ∃ en' ∈ entries u.size u.table,
    en'.key = en.key ∧ en'.hash = en.hash ∧ findHash u en.hash en.key = en'.data

/-- The new table has the old one's entries, and they are found in it. -/
def GrowthPreserves (t : Hash δ) (stale : Nat → Element δ) : Prop :=
  ∃ u, upsize t (some stale) = .ok (0, u) ∧ entries u.size u.table = entries t.size t.table ∧
    ∀ en ∈ entries u.size u.table, Found u en

theorem found_of_reach {u : Hash δ} (hp : PowTwo u.size) (hr : Reach u.size u.table u.maxdistance)
    {en : Entry δ} (hen : en ∈ entries u.size u.table) : Found u en := by
  have hk := entry_ne_nil hen
  have hsome : (findBucket u en.hash en.key).isSome := by
    obtain ⟨s, hs, hl, rfl⟩ := mem_entries.mp hen
    have hnear := (hr.fit s hs).near hl hp.pos
    refine (Ring.scan_isSome _ _ (slotNext_eq hp) (slot_lt hp _)).mpr
      ⟨_, Nat.lt_succ_of_le hnear, ?_⟩
    have hback : (slot (u.table s).entry.hash.toNat u.size +
        Ring.off u.size (slot (u.table s).hash.toNat u.size) s) % u.size = s :=
      Ring.add_off (slot_lt hp _) hs
    rw [hback]
    exact (elementMatches_iff hk).mpr ⟨hl, rfl, rfl⟩
  obtain ⟨b, hb⟩ := Option.isSome_iff_exists.mp hsome
  obtain ⟨hlt, hl, hkey, hhash⟩ := findBucket_some hp hk hb
  refine ⟨hsome, _, mem_entries.mpr ⟨b, hlt, hl, rfl⟩, hkey, hhash, ?_⟩
  rw [findHash, hb]
  rfl

theorem GrowthPreserves.keyed {t : Hash δ} {stale : Nat → Element δ}
    (hgrow : t.size ≤ t.count + spare t) (hfit : t.size + spare t ≤ 2 ^ 31)
    (h : GrowthPreserves t stale) : ∀ s < t.size, Keyed (t.table s) := by
  obtain ⟨u, hup, _, _, _, _, _, he⟩ := upsize_grown t stale hgrow hfit
  obtain ⟨v, hv, hsame, _⟩ := h
  rw [hup] at hv
  cases hv
  rw [he, Multiset.filter_eq_self] at hsame
  intro s hs
  refine keyed_iff.mpr fun en hen => hsame en ?_
  obtain ⟨hl, rfl⟩ := mem_held.mp hen
  exact mem_entries.mpr ⟨s, hs, hl, rfl⟩

/-- Growing preserves a table exactly if no live key begins with a zero. -/
theorem growth_preserves_iff (t : Hash δ) (stale : Nat → Element δ)
    (hgrow : t.size ≤ t.count + spare t) (hfit : t.size + spare t ≤ 2 ^ 31) :
    GrowthPreserves t stale ↔ ∀ s < t.size, Keyed (t.table s) := by
  constructor
  · exact GrowthPreserves.keyed hgrow hfit
  · intro hkeyed
    obtain ⟨u, hup, _, _, hp, _, hr, he⟩ := upsize_grown t stale hgrow hfit
    have hall : ∀ en ∈ entries t.size t.table, en.Keyed := by
      intro en hen
      obtain ⟨s, hs, hl, rfl⟩ := mem_entries.mp hen
      exact (entry_keyed hl).mpr (hkeyed s hs hl)
    rw [Multiset.filter_eq_self.mpr hall] at he
    exact ⟨u, hup, he, fun en hen => found_of_reach hp hr hen⟩

/-- One slot with one element in it, as the growth gets it. -/
def oneElement (key : List Byte) : Hash Nat :=
  placed oneSlot (Function.update oneSlot.table 0 (zeros.fill 0 key (some 5)), 0)

theorem growth_preserves_one : GrowthPreserves (oneElement [1]) fun _ => zeros :=
  (growth_preserves_iff _ _ (by decide) (by decide)).mpr fun s hs _ => by
    obtain rfl : s = 0 := Nat.lt_one_iff.mp hs
    decide

/-- A key that begins with a zero is stored, and lost as the table grows. -/
theorem growth_loses_zero :
    swapdown oneSlot.size oneSlot.table oneSlot.maxdistance (zeros.fill 0 [0] (some 5)) =
      .ok ((oneElement [0]).table, (oneElement [0]).maxdistance) ∧
    ¬ GrowthPreserves (oneElement [0]) fun _ => zeros :=
  ⟨rfl, fun h => h.keyed (by decide) (by decide) 0 (by decide) (by decide) rfl⟩

/-- `rbhash_free`, the data it passes to the `del` callback. -/
def free (t : Hash δ) : List δ :=
  (List.range t.size).flatMap fun s =>
    if (t.table s).key 0 = 0 then [] else if t.del then (t.table s).data.toList else []

/-- A call that changes a table. -/
inductive Change (δ : Type) where
  | add : AddCall δ → Change δ
  | remove : List Byte → Change δ
  | removeHash : BitVec 32 → List Byte → Change δ

namespace Change

/-- The table afterwards, and what `del` was called with. -/
def run (t : Hash δ) : Change δ → Except Exit (Hash δ × List δ)
  | .add c => c.run t >>= fun r => pure (r.2, [])
  | .remove key => .ok ((Rbhash.remove t key).2.1, (Rbhash.remove t key).2.2)
  | .removeHash hash key => .ok ((Rbhash.removeHash t hash key).2.1, (Rbhash.removeHash t hash key).2.2)

def step (t : Hash δ) (ch : Change δ) : Except Exit (Hash δ) := ch.run t >>= fun r => pure r.1

def key : Change δ → List Byte
  | .add c => c.key
  | .remove key => key
  | .removeHash _ key => key

def added : Change δ → List δ
  | .add c => c.data.toList
  | _ => []

/-- An addition that returns `0`. -/
def Succeeds (t : Hash δ) : Change δ → Prop
  | .add c => ∃ u, c.run t = .ok (0, u)
  | _ => True

/-- The length of a new key is a 32-bit word, and a growth gets no more than `2^31` slots
and finds no live key that begins with a zero. -/
def Fine (t : Hash δ) : Change δ → Prop
  | .add c => c.key.length < 2 ^ 32 ∧ SizesFit t ∧
      (Grows t → c.key.getD 0 0 ≠ 0 ∧ ∀ s < t.size, Keyed (t.table s))
  | _ => True

end Change

/-- The slots that `rbhash_free` takes for live ones are, or have no data. -/
def FreeFine (t : Hash δ) : Prop :=
  ∀ s < t.size, Keyed (t.table s) ∧
    ((t.table s).len = 0 → (t.table s).key 0 = 0 ∨ (t.table s).data = none)

instance (t : Hash δ) : Decidable (FreeFine t) :=
  inferInstanceAs (Decidable (∀ s < t.size, _ ∧ (_ → _ ∨ _)))

/-- All that `del` is called with, up to and including `rbhash_free`. -/
def released : Hash δ → List (Change δ) → List δ
  | t, [] => free t
  | t, ch :: rest =>
    match ch.run t with
    | .ok (u, ds) => ds ++ released u rest
    | .error _ => []

/-- The data a table is to release. -/
def owned (t : Hash δ) : Multiset δ := (entries t.size t.table).filterMap Entry.data

section Release

variable {t u : Hash δ} {ch : Change δ} {ds : List δ}

theorem filterMap_held (e : Element δ) : (held e).filterMap Entry.data =
    (if e.len = 0 then [] else e.data.toList : List δ) := by
  by_cases hl : e.len = 0
  · rw [held_empty hl, if_pos hl]
    rfl
  · rw [held_live hl, if_neg hl]
    cases hd : e.data <;> simp [← Multiset.coe_singleton, Multiset.filterMap_coe, Element.entry, hd]

theorem free_eq (hdel : t.del = true) (hf : FreeFine t) : (free t : Multiset δ) = owned t := by
  have hslot : ∀ s < t.size, (if (t.table s).key 0 = 0 then [] else
      if t.del then (t.table s).data.toList else [] : List δ) =
        if (t.table s).len = 0 then [] else (t.table s).data.toList := by
    intro s hs
    obtain ⟨hkeyed, hempty⟩ := hf s hs
    rw [if_pos hdel]
    by_cases hl : (t.table s).len = 0
    · rw [if_pos hl]
      rcases hempty hl with hk | hd
      · exact if_pos hk
      · rw [hd]
        exact ite_self _
    · rw [if_neg hl, if_neg (hkeyed hl)]
  have hsum : ∀ n ≤ t.size, (((List.range n).flatMap fun s => if (t.table s).key 0 = 0 then [] else
      if t.del then (t.table s).data.toList else [] : List δ) : Multiset δ) =
        (∑ s ∈ Finset.range n, held (t.table s)).filterMap Entry.data := by
    intro n hn
    induction n with
    | zero => rfl
    | succ n ih =>
      rw [List.range_succ, List.flatMap_append, ← Multiset.coe_add, ih (by omega),
        Finset.sum_range_succ, Multiset.filterMap_add, filterMap_held, List.flatMap_singleton,
        hslot n (by omega)]
  exact hsum t.size (Nat.le_refl _)

/-- A removal passes on what it takes out. -/
theorem removeHash_owned (hash : BitVec 32) (hp : PowTwo t.size) (hdel : t.del = true)
    {key : List Byte} (hk : key ≠ []) :
    PowTwo (removeHash t hash key).2.1.size ∧ (removeHash t hash key).2.1.del = true ∧
      owned (removeHash t hash key).2.1 + ((removeHash t hash key).2.2 : Multiset δ) = owned t := by
  cases hb : findBucket t hash key with
  | none =>
    have hsame : removeHash t hash key = (-1, t, []) := by simp [removeHash, hb]
    rw [hsame]
    exact ⟨hp, hdel, add_zero _⟩
  | some b =>
    obtain ⟨hlt, hl, _, _⟩ := findBucket_some hp hk hb
    rw [removeHash_eq hb, if_pos hdel]
    refine ⟨hp, hdel, ?_⟩
    have hheld := filterMap_held (t.table b)
    rw [held_live hl, if_neg hl] at hheld
    rw [owned, owned, ← remove_content hp hlt hl, Multiset.filterMap_add, hheld]

theorem Change.run_owned (hp : PowTwo t.size) (hdel : t.del = true) (hk : ch.key ≠ [])
    (hs : ch.Succeeds t) (hf : ch.Fine t) (hrun : ch.run t = .ok (u, ds)) :
    PowTwo u.size ∧ u.del = true ∧ owned u + (ds : Multiset δ) = owned t + (ch.added : Multiset δ) := by
  cases ch with
  | add c =>
    obtain ⟨v, hv⟩ := hs
    obtain ⟨hshort, hfit, hgrow⟩ := hf
    have hvalue : Change.run t (.add c) = .ok (v, []) := by
      rw [Change.run, hv]
      rfl
    rw [hvalue] at hrun
    cases hrun
    have hkeyed : Grows t → c.key.getD 0 0 ≠ 0 ∧ ∀ en ∈ entries t.size t.table, en.Keyed := by
      intro hg
      obtain ⟨hfirst, hslots⟩ := hgrow hg
      refine ⟨hfirst, fun en hen => ?_⟩
      obtain ⟨s, hs, hl, rfl⟩ := mem_entries.mp hen
      exact (entry_keyed hl).mpr (hslots s hs hl)
    obtain ⟨hp', hkind, he⟩ := c.stored hp (fun _ => hfit) hk hshort hkeyed hv
    refine ⟨hp', hkind.2.2.2.trans hdel, ?_⟩
    have hdata : Multiset.filterMap Entry.data {c.entry t} = (c.data.toList : Multiset δ) := by
      cases hd : c.data <;>
        simp [← Multiset.coe_singleton, Multiset.filterMap_coe, AddCall.entry, hd]
    rw [owned, he, Multiset.filterMap_add, hdata, Change.added, owned, Multiset.coe_nil, add_zero,
      add_comm]
  | remove key =>
    cases hrun
    have hk : key ≠ [] := hk
    obtain ⟨hp', hdel', hdata⟩ := removeHash_owned (t.hashing key) hp hdel hk
    exact ⟨hp', hdel', hdata.trans (add_zero _).symm⟩
  | removeHash hash key =>
    cases hrun
    have hk : key ≠ [] := hk
    obtain ⟨hp', hdel', hdata⟩ := removeHash_owned hash hp hdel hk
    exact ⟨hp', hdel', hdata.trans (add_zero _).symm⟩

/-- From any table, what is released is what was to be released and what is added. -/
theorem released_eq {changes : List (Change δ)} (hp : PowTwo t.size) (hdel : t.del = true)
    (hk : ∀ ch ∈ changes, ch.key ≠ []) (hs : Runs.Along Change.step Change.Succeeds changes t)
    (hf : Runs.Along Change.step Change.Fine changes t)
    (hfree : ∀ u, Runs.run Change.step changes t = .ok u → FreeFine u) :
    (released t changes : Multiset δ) = owned t + (changes.flatMap Change.added : List δ) := by
  induction changes generalizing t with
  | nil =>
    rw [released, free_eq hdel (hfree t rfl)]
    exact (add_zero _).symm
  | cons ch rest ih =>
    obtain ⟨hsucc, hs⟩ := hs
    obtain ⟨hfine, hf⟩ := hf
    obtain ⟨⟨u, ds⟩, hrun⟩ : ∃ r, ch.run t = .ok r := by
      cases ch with
      | add c =>
        obtain ⟨v, hv⟩ := hsucc
        exact ⟨(v, []), by rw [Change.run, hv]; rfl⟩
      | remove key => exact ⟨_, rfl⟩
      | removeHash hash key => exact ⟨_, rfl⟩
    have hstep : ch.step t = .ok u := by
      rw [Change.step, hrun]
      rfl
    obtain ⟨hp', hdel', howned⟩ := Change.run_owned hp hdel (hk ch List.mem_cons_self) hsucc hfine hrun
    have hrest := ih hp' hdel' (fun c hc => hk c (List.mem_cons_of_mem _ hc)) (hs u hstep) (hf u hstep)
      fun v hv => hfree v (by rw [Runs.run_cons, hstep]; exact hv)
    rw [released, hrun]
    simp only
    rw [← Multiset.coe_add, hrest, List.flatMap_cons, ← Multiset.coe_add, ← add_assoc, ← add_assoc,
      add_comm (ds : Multiset δ), howned]

end Release

section Histories

variable {size min keysize : Nat} {hashing : List Byte → BitVec 32} {stale : Nat → Element δ}

/-- Over any history of a table with a `del` callback, with pointers that are all different:
each one that was added is released, once, and nothing else is, as long as no growth finds
a live key that begins with a zero and `rbhash_free` finds none and no stale pointer. -/
theorem released_once (hsize : 1 ≤ size ∧ size ≤ 2 ^ 31) (changes : List (Change δ))
    (hk : ∀ ch ∈ changes, 1 ≤ ch.key.length ∧ ch.key.length ≤ keysize)
    (hnodup : (changes.flatMap Change.added).Nodup)
    (hs : Runs.Along Change.step Change.Succeeds changes (new size min keysize hashing true stale))
    (hf : Runs.Along Change.step Change.Fine changes (new size min keysize hashing true stale))
    (hfree : ∀ u, Runs.run Change.step changes (new size min keysize hashing true stale) = .ok u →
      FreeFine u) :
    (released (new size min keysize hashing true stale) changes).Nodup ∧
      ∀ d, d ∈ released (new size min keysize hashing true stale) changes ↔
        d ∈ changes.flatMap Change.added := by
  have hp : PowTwo (new size min keysize hashing true stale).size :=
    (roundUpPowTwo32_spec hsize.1 hsize.2).1
  have hkeys : ∀ ch ∈ changes, ch.key ≠ [] :=
    fun ch hch => List.length_pos_iff.mp (hk ch hch).1
  have hnew : owned (new size min keysize hashing true stale) = 0 := by
    have he : entries (roundUpPowTwo32 size) (clear (roundUpPowTwo32 size) stale) = 0 :=
      entries_clear _ _
    rw [owned, new, he]
    rfl
  have heq := released_eq hp rfl hkeys hs hf hfree
  rw [hnew, zero_add] at heq
  have hperm := Multiset.coe_eq_coe.mp heq
  exact ⟨hperm.nodup_iff.mpr hnodup, fun d => hperm.mem_iff⟩

end Histories

/-- Eight slots, and a `del` callback. -/
def ownerTable : Hash Nat := new 8 10 4 (fun _ => 0) true fun _ => zeros

def addKey (key : List Byte) (d : Nat) : Change Nat := .add ⟨.plain, key, some d, ⟨some zeros, none⟩⟩

def twoKeys : List (Change Nat) := [addKey [1] 5, .remove [1], addKey [2] 6]

/-- A key that is added and removed, and one that is left to `rbhash_free`. -/
theorem released_once_two : (released ownerTable twoKeys).Nodup ∧
    ∀ d, d ∈ released ownerTable twoKeys ↔ d ∈ twoKeys.flatMap Change.added := by
  refine released_once (by decide) twoKeys (by decide) (by decide) ?_ ?_ ?_
  · refine ⟨⟨_, rfl⟩, fun t ht => ⟨trivial, fun u hu => ⟨?_, fun _ _ => trivial⟩⟩⟩
    cases ht
    cases hu
    exact ⟨_, rfl⟩
  · refine ⟨⟨by decide, by decide, fun hg => absurd hg (by decide)⟩,
      fun t ht => ⟨trivial, fun u hu => ⟨?_, fun _ _ => trivial⟩⟩⟩
    cases ht
    cases hu
    exact ⟨by decide, by decide, fun hg => absurd hg (by decide)⟩
  · intro u hu
    cases hu
    decide +kernel

/-- A key that begins with a zero is never released. -/
theorem zero_never_released : Change.Succeeds ownerTable (addKey [0] 5) ∧
    ¬ ∀ d, d ∈ released ownerTable [addKey [0] 5] ↔ d ∈ [addKey [0] 5].flatMap Change.added := by
  refine ⟨⟨_, rfl⟩, fun h => ?_⟩
  have hnone : released ownerTable [addKey [0] 5] = [] := by decide +kernel
  rw [hnone] at h
  exact absurd ((h 5).mpr (by decide)) (by decide)

end Rbhash
