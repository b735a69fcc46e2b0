import Chip32.RbhashMap

/-!
# Removal

`rbhash_swapup` moves one element back and leaves its stored distance as it
was. An element that is back in its home slot can so be moved behind it, out of
every lookup's reach; a removal that does not do this removes one pair from the
map and nothing else.
-/
namespace Rbhash

variable {δ : Type}

/-- The loop makes at most one turn: it empties the very element it keeps looking at. -/
theorem swapup_eq {size b : Nat} {mem : Nat → Element δ} (hn : 0 < size) (he : (mem b).len = 0) :
    swapup size mem b =
      if (mem (slotNext size b)).len ≠ 0 ∧ (mem (slotNext size b)).distance ≠ 0 then
        Function.update (Function.update mem b (mem (slotNext size b))) (slotNext size b)
          { mem (slotNext size b) with len := 0, data := none }
      else mem := by
  obtain ⟨k, rfl⟩ : ∃ k, size = k + 1 := ⟨size - 1, by omega⟩
  unfold swapup
  generalize slotNext (k + 1) b = n
  rw [swapupLoop]
  split
  · next h =>
    have hne : n ≠ b := by
      rintro rfl
      exact h.1 he
    simp only [Nat.zero_add, Function.update_of_ne hne]
    cases k with
    | zero => rfl
    | succ k => simp [swapupLoop]
  · rfl

/-- The removal does not move an element out of its home slot: the next slot is
empty, or its element is not taken for displaced, or it is displaced, or lookups
scan the whole table. -/
def RemovalSafe (t : Hash δ) (key : List Byte) : Prop :=
  ∀ b, findBucket t (t.hashing key) key = some b →
    (t.table (slotNext t.size b)).len = 0 ∨ (t.table (slotNext t.size b)).distance = 0 ∨
      slot (t.table (slotNext t.size b)).hash.toNat t.size ≠ slotNext t.size b ∨
      t.size ≤ t.maxdistance + 1

section Remove

variable {t : Hash δ} {key : List Byte} {b : Nat}

/-- The table a successful removal leaves, before the elements after it move. -/
def emptied (t : Hash δ) (b : Nat) : Nat → Element δ :=
  Function.update t.table b { t.table b with len := 0, data := none }

theorem removeHash_eq {hash : BitVec 32} (hb : findBucket t hash key = some b) :
    removeHash t hash key = (0, { t with table := swapup t.size (emptied t b) b, count := t.count - 1 },
      if t.del then (t.table b).data.toList else []) := by
  simp [removeHash, hb, emptied]

theorem remove_eq (hb : findBucket t (t.hashing key) key = some b) :
    remove t key = (0, { t with table := swapup t.size (emptied t b) b, count := t.count - 1 },
      if t.del then (t.table b).data.toList else []) :=
  removeHash_eq hb

theorem remove_not_found (hb : findBucket t (t.hashing key) key = none) :
    remove t key = (-1, t, []) := by
  simp [remove, removeHash, hb]

/-- The next element is moved back. -/
def Shifts (t : Hash δ) (b : Nat) : Prop :=
  (emptied t b (slotNext t.size b)).len ≠ 0 ∧ (emptied t b (slotNext t.size b)).distance ≠ 0

theorem Shifts.ne (h : Shifts t b) : slotNext t.size b ≠ b := by
  intro he
  rw [Shifts, he] at h
  simp [emptied] at h

theorem Shifts.next (h : Shifts t b) :
    emptied t b (slotNext t.size b) = t.table (slotNext t.size b) :=
  Function.update_of_ne h.ne _ _

theorem emptied_len : (emptied t b b).len = 0 := by simp [emptied]

/-- Exactly the found entry is gone. -/
theorem remove_content (hp : PowTwo t.size) (hlt : b < t.size) (hl : (t.table b).len ≠ 0) :
    entries t.size (swapup t.size (emptied t b) b) + {(t.table b).entry} =
      entries t.size t.table := by
  have hempty : entries t.size (emptied t b) + {(t.table b).entry} = entries t.size t.table := by
    have hu := entries_update t.table { t.table b with len := 0, data := none } hlt
    rwa [held_live hl, held_empty rfl, add_zero] at hu
  rw [← hempty, swapup_eq hp.pos emptied_len]
  congr 1
  split
  · next hs =>
    have hs : Shifts t b := hs
    have h₁ := entries_update_empty (emptied t b) (emptied t b (slotNext t.size b)) hlt emptied_len
    have h₂ := entries_update
      (Function.update (emptied t b) b (emptied t b (slotNext t.size b)))
      { emptied t b (slotNext t.size b) with len := 0, data := none } (slotNext_lt hp b)
    rw [Function.update_of_ne hs.ne, h₁, held_empty (e := { emptied t b _ with len := 0, data := _ })
      rfl, add_zero, add_comm] at h₂
    exact add_left_cancel h₂
  · rfl

/-- A safe removal keeps every element within reach. -/
theorem remove_fit (h : Inv t) (hlt : b < t.size)
    (hsafe : Shifts t b → slot (t.table (slotNext t.size b)).hash.toNat t.size ≠ slotNext t.size b ∨
      t.size ≤ t.maxdistance + 1) :
    ∀ s < t.size, Fit t.size t.maxdistance s (swapup t.size (emptied t b) b s) := by
  have hempty : ∀ s < t.size, Fit t.size t.maxdistance s (emptied t b s) := by
    intro s hs
    by_cases he : s = b
    · subst he
      exact fun hl => absurd emptied_len hl
    · rw [emptied, Function.update_of_ne he]
      exact h.fit s hs
  rw [swapup_eq h.pow.pos emptied_len]
  split
  · next hs =>
    have hs : Shifts t b := hs
    intro s hlt'
    by_cases hn : s = slotNext t.size b
    · subst hn
      rw [Function.update_self]
      exact fun hl => absurd rfl hl
    · rw [Function.update_of_ne hn]
      by_cases he : s = b
      · subst he
        rw [Function.update_self, hs.next]
        intro hl
        obtain ⟨hd, hr⟩ := h.fit _ (slotNext_lt h.pow s) hl
        refine ⟨hd, ?_⟩
        rcases hsafe hs with hhome | hfull
        · -- one slot back towards a home that is still further back
          have hnext := slotNext_eq h.pow s
          have hstep := Ring.off_next (slot_lt h.pow (t.table (slotNext t.size s)).hash.toNat) hlt
          rw [← hnext] at hstep
          split at hstep
          · next hround =>
            exfalso
            have hself := Ring.off_self t.size (slot (t.table (slotNext t.size s)).hash.toNat t.size)
            exact hhome (Ring.off_inj (slot_lt h.pow _) (slot_lt h.pow _) (slotNext_lt h.pow s)
              (hself.trans hstep.symm))
          · omega
        · exact .inr hfull
      · rw [Function.update_of_ne he]
        exact hempty s hlt'
  · exact hempty

theorem shifts_iff :
    Shifts t b ↔ slotNext t.size b ≠ b ∧ (t.table (slotNext t.size b)).len ≠ 0 ∧
      (t.table (slotNext t.size b)).distance ≠ 0 := by
  constructor
  · intro h
    refine ⟨h.ne, ?_⟩
    rw [← h.next]
    exact h
  · rintro ⟨hne, hlive⟩
    rw [Shifts, emptied, Function.update_of_ne hne]
    exact hlive

/-- A safe removal takes one key out of the map. -/
theorem remove_holds {m : List Byte → Option δ} (h : Holds t m) (hk : key ≠ [])
    (hsafe : RemovalSafe t key) : Holds (remove t key).2.1 (Function.update m key none) := by
  cases hb : findBucket t (t.hashing key) key with
  | none =>
    rw [remove_not_found hb]
    have hnone : m key = none := by rw [← find_eq h hk, find, findHash, hb]
    rwa [← hnone, Function.update_eq_self]
  | some b =>
    obtain ⟨hlt, hl, he, hh⟩ := findBucket_some h.pow hk hb
    have hc := remove_content h.pow hlt hl
    have hfit := remove_fit h.toInv hlt fun hs => by
      obtain ⟨_, h₁, h₂⟩ := shifts_iff.mp hs
      rcases hsafe b hb with h' | h' | h'
      · exact absurd h' h₁
      · exact absurd h' h₂
      · exact h'
    rw [remove_eq hb]
    simp only
    have hsub : entries t.size (swapup t.size (emptied t b) b) ≤ entries t.size t.table := by
      rw [← hc]
      exact Multiset.le_add_right _ _
    have hnodup := h.nodup
    rw [← hc, Multiset.map_add, Multiset.map_singleton, add_comm, Multiset.singleton_add,
      Multiset.nodup_cons, he] at hnodup
    refine ⟨⟨h.pow, h.keySize, hfit, fun en hen => h.sound en (Multiset.mem_of_le hsub hen),
      hnodup.2, ?_⟩, fun k d => ?_⟩
    · have hcount := h.count
      rw [← hc, Multiset.card_add, Multiset.card_singleton] at hcount
      simp only
      omega
    · have hmem := h.content k d
      rw [← hc, Multiset.mem_add, Multiset.mem_singleton] at hmem
      by_cases hkk : k = key
      · subst hkk
        simp only [Function.update_self, reduceCtorEq, iff_false]
        exact fun hin => hnodup.1 (Multiset.mem_map_of_mem Entry.key hin)
      · rw [Function.update_of_ne hkk, ← hmem]
        refine ⟨.inl, fun h' => h'.resolve_right fun heq => hkk ?_⟩
        rw [← he, ← heq]

/-- An unsafe removal loses the pair of the next element. -/
theorem remove_unsafe {m : List Byte → Option δ} (h : Holds t m) (hk : key ≠ [])
    (hbad : ¬ RemovalSafe t key) :
    (remove t key).1 = 0 ∧
      ∃ k d, k ≠ key ∧ m k = some d ∧ find (remove t key).2.1 k = none := by
  simp only [RemovalSafe, not_forall, not_or, not_not] at hbad
  obtain ⟨b, hb, hl, hd, hhome, hscan⟩ := hbad
  obtain ⟨hlt, hbl, he, _⟩ := findBucket_some h.pow hk hb
  have hn := slotNext_lt h.pow b
  have hoff := Ring.off_next hn hlt
  rw [← slotNext_eq h.pow, Ring.off_self] at hoff
  have hlast : Ring.off t.size (slotNext t.size b) b + 1 = t.size := by
    by_contra hne
    rw [if_neg hne] at hoff
    omega
  have hne : slotNext t.size b ≠ b := by
    intro heq
    rw [heq, Ring.off_self] at hlast
    omega
  have hs : Shifts t b := shifts_iff.mpr ⟨hne, hl, hd⟩
  have hmem : (t.table (slotNext t.size b)).entry ∈ entries t.size t.table :=
    mem_entries.mpr ⟨_, hn, hl, rfl⟩
  obtain ⟨hvalid, hhash, hsome⟩ := h.sound _ hmem
  obtain ⟨d, hdata⟩ := Option.isSome_iff_exists.mp hsome
  rw [remove_eq hb]
  refine ⟨rfl, (t.table (slotNext t.size b)).entry.key, d, ?_, ?_, ?_⟩
  · intro hsame
    exact hne (slot_unique h.nodup hn hlt hl hbl (hsame.trans he.symm))
  · rw [← h.content, ← hdata, ← hhash]
    exact hmem
  · have hmoved : swapup t.size (emptied t b) b b = t.table (slotNext t.size b) := by
      have hmoves : (emptied t b (slotNext t.size b)).len ≠ 0 ∧
        (emptied t b (slotNext t.size b)).distance ≠ 0 := hs
      rw [swapup_eq h.pow.pos emptied_len, if_pos hmoves, Function.update_of_ne hne.symm,
        Function.update_self, hs.next]
    have hnodup := h.nodup
    rw [← remove_content h.pow hlt hbl, Multiset.map_add, Multiset.map_singleton, add_comm,
      Multiset.singleton_add, Multiset.nodup_cons] at hnodup
    have hnone : findBucket
        { t with table := swapup t.size (emptied t b) b, count := t.count - 1 }
        (t.hashing (t.table (slotNext t.size b)).entry.key)
        (t.table (slotNext t.size b)).entry.key = none := by
      rw [← hhash]
      refine Ring.scan_eq_none _ _ (slotNext_eq h.pow) (slot_lt h.pow _) fun s hslt hclose => ?_
      rw [Bool.eq_false_iff]
      intro hm
      obtain ⟨hsl, hsk, _⟩ := (elementMatches_iff hvalid.ne_nil).mp hm
      have hsb : s = b := slot_unique hnodup.2 hslt hlt hsl (by rw [hmoved]; exact hl)
        (by rw [hmoved]; exact hsk)
      have hhome' : slot (t.table (slotNext t.size b)).entry.hash.toNat t.size =
        slotNext t.size b := hhome
      simp only [hsb, hhome'] at hclose
      omega
    simp only [find, findHash, hnone]

end Remove

inductive Op (δ : Type) where
  | add : Call δ → Op δ
  | remove : List Byte → Op δ

def Op.key : Op δ → List Byte
  | .add c => c.key
  | .remove key => key

def Op.step (t : Hash δ) : Op δ → Except Exit (Hash δ)
  | .add c => c.step t
  | .remove key => .ok (Rbhash.remove t key).2.1

/-- What an operation does to the map. -/
def Op.apply (m : List Byte → Option δ) : Op δ → List Byte → Option δ
  | .add c => if (m c.key).isSome then m else Function.update m c.key (some c.data)
  | .remove key => Function.update m key none

/-- What was added and not removed. -/
def mapAfter (ops : List (Op δ)) : List Byte → Option δ := ops.foldl Op.apply fun _ => none

def Op.Fits (t : Hash δ) : Op δ → Prop
  | .add c => Rbhash.Fits t c
  | .remove _ => True

def Op.Safe (t : Hash δ) : Op δ → Prop
  | .add _ => True
  | .remove key => RemovalSafe t key

/-- After every successful removal its key is gone and every other is still found. -/
def LosesNothing (t₀ : Hash δ) (ops : List (Op δ)) : Prop :=
  ∀ front key rest t, ops = front ++ .remove key :: rest → Runs.run Op.step front t₀ = .ok t →
    (remove t key).1 = 0 →
    find (remove t key).2.1 key = none ∧
    ∀ k d, k ≠ key → mapAfter front k = some d → find (remove t key).2.1 k = some d

theorem remove_sameKind (t : Hash δ) (key : List Byte) : SameKind t (remove t key).2.1 := by
  unfold remove removeHash
  split
  · exact .refl t
  · exact ⟨rfl, rfl, rfl, rfl⟩

theorem op_holds {t u : Hash δ} {m : List Byte → Option δ} (h : Holds t m) {op : Op δ}
    (hv : ValidKey t.keySize op.key) (hf : op.Fits t) (hs : op.Safe t)
    (hstep : op.step t = .ok u) : Holds u (op.apply m) ∧ SameKind t u := by
  cases op with
  | remove key =>
    cases hstep
    exact ⟨remove_holds h hv.ne_nil hs, remove_sameKind t key⟩
  | add c =>
    have hv : ValidKey t.keySize c.key := hv
    obtain ⟨ru, hret, hu⟩ := Runs.bind_eq_ok.mp hstep
    cases hu
    simp only [Op.apply]
    cases hm : m c.key with
    | some d =>
      rw [Call.run, addUnique_present h hv.ne_nil hm] at hret
      cases hret
      exact ⟨h, .refl t⟩
    | none =>
      have hfit : SizesFit t := by
        have hf : Rbhash.Fits t c := hf
        rw [Rbhash.Fits, find_eq h hv.ne_nil, hm] at hf
        simpa using hf
      obtain ⟨_, hh, hkind, _⟩ := addUnique_absent h hv hm hfit hret
      exact ⟨hh, hkind⟩

section Ops

variable {size min keysize : Nat} {hashing : List Byte → BitVec 32} {del : Bool}
  {stale : Nat → Element δ}

/-- As long as every removal is safe, the table stands for the map. -/
theorem run_ops_holds (h₁ : 1 ≤ size) (h₂ : size ≤ 2 ^ 31) (hk : keysize ≤ 2 ^ 31)
    {ops : List (Op δ)} (hv : ∀ op ∈ ops, ValidKey keysize op.key)
    (hfit : Runs.Along Op.step Op.Fits ops (new size min keysize hashing del stale))
    (hsafe : Runs.Along Op.step Op.Safe ops (new size min keysize hashing del stale))
    {t : Hash δ} (hrun : Runs.run Op.step ops (new size min keysize hashing del stale) = .ok t) :
    Holds t (mapAfter ops) ∧ SameKind (new size min keysize hashing del stale) t := by
  induction ops using List.reverseRecOn generalizing t with
  | nil =>
    cases hrun
    exact ⟨holds_new size min keysize hashing del stale h₁ h₂ (by omega), .refl _⟩
  | append_singleton ops op ih =>
    obtain ⟨u, hu, ht⟩ := (Runs.run_snoc_ok Op.step).mp hrun
    obtain ⟨hfit, hlast⟩ := (Runs.along_append Op.step).mp hfit
    obtain ⟨hsafe, hsl⟩ := (Runs.along_append Op.step).mp hsafe
    obtain ⟨hh, hkind⟩ := ih (fun op hop => hv op (by simp [hop])) hfit hsafe hu
    have hvo : ValidKey u.keySize op.key := by
      rw [hkind.2.1]
      exact hv op (by simp)
    obtain ⟨hh', hkind'⟩ := op_holds hh hvo (hlast u hu).1 (hsl u hu).1 ht
    rw [mapAfter, List.foldl_concat]
    exact ⟨hh', hkind.trans hkind'⟩

/-- Removal loses nothing exactly as long as no removal moves an element out of
its home slot. -/
theorem losesNothing_iff (hsize : 1 ≤ size ∧ size ≤ 2 ^ 31) (hkey : 1 ≤ keysize ∧ keysize ≤ 2 ^ 31)
    (ops : List (Op δ)) (hv : ∀ op ∈ ops, ValidKey keysize op.key)
    (hfit : Runs.Along Op.step Op.Fits ops (new size min keysize hashing del stale)) :
    LosesNothing (new size min keysize hashing del stale) ops ↔
      Runs.Along Op.step Op.Safe ops (new size min keysize hashing del stale) := by
  obtain ⟨h₁, h₂⟩ := hsize
  constructor
  · intro hloses
    induction ops using List.reverseRecOn with
    | nil => trivial
    | append_singleton ops op ih =>
      have hfit' := (Runs.along_append Op.step).mp hfit
      have hsafe := ih (fun op hop => hv op (by simp [hop])) hfit'.1
        (fun front key rest t he => hloses front key (rest ++ [op]) t (by simp [he]))
      refine (Runs.along_append Op.step).mpr ⟨hsafe, fun t ht => ⟨?_, fun _ _ => trivial⟩⟩
      cases op with
      | add c => trivial
      | remove key =>
        obtain ⟨hh, hkind⟩ := run_ops_holds h₁ h₂ hkey.2
          (fun op hop => hv op (by simp [hop])) hfit'.1 hsafe ht
        have hvk : ValidKey keysize key := hv (.remove key) (by simp)
        by_contra hbad
        obtain ⟨hret, k, d, hne, hm, hnone⟩ := remove_unsafe hh hvk.ne_nil hbad
        have := (hloses ops key [] t rfl ht hret).2 k d hne hm
        rw [hnone] at this
        simp at this
  · rintro hsafe front key rest t rfl ht -
    obtain ⟨hfit, _⟩ := (Runs.along_append Op.step).mp hfit
    obtain ⟨hsafe, hlast⟩ := (Runs.along_append Op.step).mp hsafe
    obtain ⟨hh, _⟩ := run_ops_holds h₁ h₂ hkey.2 (fun op hop => hv op (by simp [hop])) hfit hsafe ht
    have hvk : ValidKey keysize key := hv (.remove key) (by simp)
    have hh' := remove_holds hh hvk.ne_nil (hlast t ht).1
    refine ⟨by rw [find_eq hh' hvk.ne_nil, Function.update_self], fun k d hne hm => ?_⟩
    have hk : k ≠ [] := ((hh.sound _ ((hh.content k d).mpr hm)).1).ne_nil
    rw [find_eq hh' hk, Function.update_of_ne hne, hm]

end Ops

/-- A hash function that takes a key's first byte. -/
def firstByte (key : List Byte) : BitVec 32 := (key.getD 0 0).setWidth 32

def blank : Element Nat := ⟨none, 0, 0, 0, fun _ => 0⟩

/-- Eight slots, the home of a key its first byte modulo eight. -/
def eightSlots : Hash Nat := new 8 10 4 firstByte false fun _ => blank

/-- A removal with nothing in the next slot. -/
theorem losesNothing_iff_pair :
    let ops : List (Op Nat) := [.add ⟨[1], 10, blank, fun _ => blank⟩, .remove [1]]
    LosesNothing eightSlots ops ↔ Runs.Along Op.step Op.Safe ops eightSlots :=
  losesNothing_iff (by decide) (by decide) _ (by decide)
    ⟨.inr (by decide), fun _ _ => ⟨trivial, fun _ _ => trivial⟩⟩

/-- Two keys whose home is slot 1 and one whose home is slot 0: the second key
comes back to slot 1 as the first is removed, and goes on to slot 0 as the third is. -/
def shiftedTwice : List (Op Nat) :=
  [.add ⟨[1], 10, blank, fun _ => blank⟩, .add ⟨[9], 20, blank, fun _ => blank⟩, .remove [1],
    .add ⟨[8], 30, blank, fun _ => blank⟩, .remove [8]]

theorem shiftedTwice_loses : ¬ LosesNothing eightSlots shiftedTwice := by
  intro h
  have hrun : ((Runs.run Op.step (shiftedTwice.take 4) eightSlots).toOption.map
      fun t => ((remove t [8]).1, find (remove t [8]).2.1 [9])) = some (0, none) := by
    decide +kernel
  have hmap : mapAfter (shiftedTwice.take 4) [9] = some 20 := by decide +kernel
  obtain ⟨t, ht, hlast⟩ := Option.map_eq_some_iff.mp hrun
  obtain ⟨hret, hnone⟩ := Prod.mk.inj hlast
  have hfound :=
    (h (shiftedTwice.take 4) [8] [] t rfl (Runs.ok_of_toOption ht) hret).2 [9] 20 (by decide) hmap
  rw [hnone] at hfound
  cases hfound

end Rbhash
