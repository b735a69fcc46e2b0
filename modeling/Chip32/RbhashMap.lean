import Chip32.RbhashGrowth
import Mathlib.Data.Finset.Dedup

/-!
# The hash table is a finite map

An abstract map is a function from keys to optional data. A table stands for a
map when it is sound, keeps its keys distinct and holds exactly the map's
pairs; `rbhash_add_unique` then is insertion of an absent key and `rbhash_find`
is application, through every growth of the table.
-/
namespace Rbhash

variable {δ : Type}

/-- A key the callers may use: not longer than `keySize`, not empty and with a
first byte that `rbhash_upsize` can tell from an empty slot. -/
def ValidKey (keySize : Nat) (key : List Byte) : Prop :=
  key.getD 0 0 ≠ 0 ∧ key.length ≤ keySize

instance (keySize : Nat) (key : List Byte) : Decidable (ValidKey keySize key) :=
  inferInstanceAs (Decidable (_ ∧ _))

theorem ValidKey.ne_nil {keySize : Nat} {key : List Byte} (h : ValidKey keySize key) :
    key ≠ [] := by
  rintro rfl
  exact h.1 rfl

/-- What holds of a table between two calls. -/
structure Inv (t : Hash δ) : Prop where
  pow : PowTwo t.size
  keySize : t.keySize < 2 ^ 32
  fit : ∀ s < t.size, Fit t.size t.maxdistance s (t.table s)
  sound : ∀ en ∈ entries t.size t.table,
    ValidKey t.keySize en.key ∧ en.hash = t.hashing en.key ∧ en.data.isSome
  nodup : ((entries t.size t.table).map Entry.key).Nodup
  count : Multiset.card (entries t.size t.table) = t.count

/-- The table stands for the map. -/
structure Holds (t : Hash δ) (m : List Byte → Option δ) : Prop extends Inv t where
  content : ∀ key d,
    (⟨key, t.hashing key, some d⟩ : Entry δ) ∈ entries t.size t.table ↔ m key = some d

theorem elementMatches_iff {t : Hash δ} {hash : BitVec 32} {key : List Byte} {s : Nat}
    (hk : key ≠ []) :
    elementMatches t hash key s = true ↔
      (t.table s).len ≠ 0 ∧ (t.table s).entry.key = key ∧ (t.table s).hash = hash := by
  have hlen : key.length ≠ 0 := by simpa using hk
  simp only [elementMatches, Bool.and_eq_true, decide_eq_true_eq, Element.entry]
  constructor
  · rintro ⟨⟨hl, hh⟩, hb⟩
    exact ⟨by omega, by rw [hl, hb], hh⟩
  · rintro ⟨hl, hb, hh⟩
    have hn : (t.table s).len = key.length := by
      rw [← hb]
      simp [Element.bytes]
    exact ⟨⟨hn, hh⟩, by rw [← hn, hb]⟩

theorem findBucket_some {t : Hash δ} {hash : BitVec 32} {key : List Byte} {b : Nat}
    (hp : PowTwo t.size) (hk : key ≠ []) (h : findBucket t hash key = some b) :
    b < t.size ∧ (t.table b).len ≠ 0 ∧ (t.table b).entry.key = key ∧ (t.table b).hash = hash := by
  refine ⟨Ring.scan_lt _ _ (slotNext_eq hp) (slot_lt hp _) h, ?_⟩
  exact (elementMatches_iff hk).mp (Ring.scan_some _ _ h)

/-- A live element is the one its own key finds. -/
theorem findBucket_live {t : Hash δ} (hp : PowTwo t.size)
    (hfit : ∀ s < t.size, Fit t.size t.maxdistance s (t.table s))
    (hn : ((entries t.size t.table).map Entry.key).Nodup) {s : Nat} (hs : s < t.size)
    (hl : (t.table s).len ≠ 0) (hk : (t.table s).entry.key ≠ []) :
    findBucket t (t.table s).hash (t.table s).entry.key = some s := by
  have hnear := (hfit s hs).near hl hp.pos
  refine Ring.scan_eq_some _ _ (slotNext_eq hp) (slot_lt hp _) hs (by omega)
    ((elementMatches_iff hk).mpr ⟨hl, rfl, rfl⟩) fun u hu hm => ?_
  obtain ⟨hul, huk, _⟩ := (elementMatches_iff hk).mp hm
  exact slot_unique hn hu hs hul hl huk

theorem find_of_mem {t : Hash δ} (h : Inv t) {en : Entry δ}
    (hen : en ∈ entries t.size t.table) : find t en.key = en.data := by
  obtain ⟨hv, hh, _⟩ := h.sound en hen
  obtain ⟨s, hs, hl, rfl⟩ := mem_entries.mp hen
  have hb := findBucket_live h.pow h.fit h.nodup hs hl hv.ne_nil
  have hhash : (t.table s).hash = t.hashing (t.table s).entry.key := hh
  rw [hhash] at hb
  simp only [find, findHash, hb]
  rfl

/-- `rbhash_find` applies the map the table stands for. -/
theorem find_eq {t : Hash δ} {m : List Byte → Option δ} (h : Holds t m) {key : List Byte}
    (hk : key ≠ []) : find t key = m key := by
  cases hm : m key with
  | some d => exact find_of_mem h.toInv ((h.content key d).mpr hm)
  | none =>
    have hnone : findBucket t (t.hashing key) key = none := by
      rw [Option.eq_none_iff_forall_ne_some]
      intro b hb
      obtain ⟨hlt, hl, he, hh⟩ := findBucket_some h.pow hk hb
      have hmem : (t.table b).entry ∈ entries t.size t.table := mem_entries.mpr ⟨b, hlt, hl, rfl⟩
      obtain ⟨_, _, hsome⟩ := h.sound _ hmem
      obtain ⟨d, hd⟩ := Option.isSome_iff_exists.mp hsome
      have hentry : (t.table b).entry = ⟨key, t.hashing key, some d⟩ := Entry.ext he hh hd
      rw [hentry, h.content, hm] at hmem
      exact absurd hmem (by simp)
    simp only [find, findHash, hnone]

/-- Growing keeps the content; afterwards there is a free slot. -/
theorem upsize_spec {t : Hash δ} (h : Inv t) (stale : Nat → Element δ)
    (hfit : t.size ≤ t.count + spare t → t.size + spare t ≤ 2 ^ 31) :
    ∃ u, upsize t (some stale) = .ok (0, u) ∧ Inv u ∧ SameKind t u ∧ u.count < u.size ∧
      entries u.size u.table = entries t.size t.table := by
  by_cases hgrow : t.size ≤ t.count + spare t
  · obtain ⟨u, hup, hkind, hcount, hp, hlt, hr, hc⟩ := upsize_grown t stale hgrow (hfit hgrow)
    have hkeyed : ∀ en ∈ entries t.size t.table, en.Keyed := fun en hen => (h.sound en hen).1.1
    rw [Multiset.filter_eq_self.mpr hkeyed] at hc
    have hcard := card_entries_le t.size t.table
    have hn := h.count
    refine ⟨u, hup, ⟨hp, ?_, hr.fit, ?_, ?_, ?_⟩, hkind, by omega, hc⟩
    · rw [hkind.2.1]
      exact h.keySize
    · rw [hc, hkind.1, hkind.2.1]
      exact h.sound
    · rw [hc]
      exact h.nodup
    · rw [hc, hcount]
      exact hn
  · have hsame : upsize t (some stale) = .ok (0, t) := by
      unfold upsize
      exact if_pos (by omega)
    exact ⟨t, hsame, h, .refl t, by omega, rfl⟩

/-- The new element in its slot. -/
theorem Inv.placed {t : Hash δ} (h : Inv t) {key : List Byte} {d : δ} {el : Element δ}
    (hv : ValidKey t.keySize key) (hnew : ∀ en ∈ entries t.size t.table, en.key ≠ key)
    {acc : (Nat → Element δ) × Nat}
    (hswap : swapdown t.size t.table t.maxdistance (el.fill (t.hashing key) key (some d)) = .ok acc) :
    Inv (placed t acc) ∧
      entries t.size acc.1 = {⟨key, t.hashing key, some d⟩} + entries t.size t.table := by
  obtain ⟨hc, hf⟩ := swapdown_spec h.pow h.fit rfl hswap
  have hshort : key.length < 2 ^ 32 := Nat.lt_of_le_of_lt hv.2 h.keySize
  rw [held_fill el _ _ hv.ne_nil hshort] at hc
  refine ⟨⟨h.pow, h.keySize, hf, ?_, ?_, ?_⟩, hc⟩
  · intro en hen
    have hen : en ∈ entries t.size acc.1 := hen
    rw [hc, Multiset.mem_add, Multiset.mem_singleton] at hen
    rcases hen with rfl | hen
    · exact ⟨hv, rfl, rfl⟩
    · exact h.sound en hen
  · change ((entries t.size acc.1).map Entry.key).Nodup
    rw [hc, Multiset.map_add, Multiset.map_singleton, Multiset.singleton_add,
      Multiset.nodup_cons]
    refine ⟨fun hmem => ?_, h.nodup⟩
    obtain ⟨en, hen, he⟩ := Multiset.mem_map.mp hmem
    exact hnew en hen he
  · change Multiset.card (entries t.size acc.1) = t.count + 1
    rw [hc, Multiset.card_add, h.count, Multiset.card_singleton, add_comm]

/-- Once the new element has found its slot, the call succeeds. -/
theorem add_of_swapdown (stale : Nat → Element δ) {t : Hash δ} (h : Inv t) {key : List Byte} {d : δ}
    {el : Element δ} (hv : ValidKey t.keySize key) (hs : SizesFit t)
    (hnew : ∀ en ∈ entries t.size t.table, en.key ≠ key) {acc : (Nat → Element δ) × Nat}
    (hswap : swapdown t.size t.table t.maxdistance (el.fill (t.hashing key) key (some d)) = .ok acc) :
    ∃ u, add t key (some d) ⟨some el, some stale⟩ = .ok (0, u) ∧ Inv u ∧ SameKind t u ∧
      (t.min ≠ 0 → u.count < u.size) ∧
      entries u.size u.table = {⟨key, t.hashing key, some d⟩} + entries t.size t.table := by
  obtain ⟨hi, hc⟩ := h.placed hv hnew hswap
  have hadd : add t key (some d) ⟨some el, some stale⟩ =
      if Grows t then upsize (placed t acc) (some stale) else .ok (0, placed t acc) := by
    rw [add, addHash_eq hv.2 rfl, hswap, Runs.ok_bind]
  rw [hadd]
  by_cases hg : Grows t
  · obtain ⟨u, hup, hiu, hkind, hroom, he⟩ := upsize_spec hi stale (hs hg.1)
    rw [if_pos hg]
    exact ⟨u, hup, hiu, hkind, fun _ => hroom, he.trans hc⟩
  · rw [if_neg hg]
    refine ⟨_, rfl, hi, placed_sameKind, fun hm => ?_, hc⟩
    have hlt := room_of_not_grows hm hg
    simp only [placed]
    omega

/-- Adding a pair to the map, seen from the content. -/
theorem holds_of_add {t u : Hash δ} {m : List Byte → Option δ} (h : Holds t m) {key : List Byte}
    {d : δ} (hnone : m key = none) (hi : Inv u) (hkind : SameKind t u)
    (he : entries u.size u.table = {⟨key, t.hashing key, some d⟩} + entries t.size t.table) :
    Holds u (Function.update m key (some d)) := by
  refine ⟨hi, fun k e => ?_⟩
  rw [he, Multiset.mem_add, Multiset.mem_singleton, hkind.1, h.content]
  by_cases hk : k = key
  · subst hk
    simp [hnone, eq_comm]
  · simp [hk]

/-- `rbhash_add_unique` of a key the map has. -/
theorem addUnique_present {t : Hash δ} {m : List Byte → Option δ} (h : Holds t m)
    {key : List Byte} (hk : key ≠ []) {d : δ} (hm : m key = some d) (data : Option δ)
    (a : Alloc δ) : addUnique t key data a = .ok (-1, t) := by
  simp [addUnique, find_eq h hk, hm]

/-- `rbhash_add_unique` of a key the map has not, if the call returns. -/
theorem addUnique_absent {t : Hash δ} {m : List Byte → Option δ} (h : Holds t m)
    {key : List Byte} (hv : ValidKey t.keySize key) (hm : m key = none) (hs : SizesFit t) {d : δ}
    {el : Element δ} {stale : Nat → Element δ} {ru : Int × Hash δ}
    (hret : addUnique t key (some d) ⟨some el, some stale⟩ = .ok ru) :
    ru.1 = 0 ∧ Holds ru.2 (Function.update m key (some d)) ∧ SameKind t ru.2 ∧
      (t.min ≠ 0 → ru.2.count < ru.2.size) ∧ ru.2.count = t.count + 1 := by
  have hfind : (find t key).isSome = false := by rw [find_eq h hv.ne_nil, hm]; rfl
  rw [addUnique, hfind, if_neg (by simp)] at hret
  have hnew : ∀ en ∈ entries t.size t.table, en.key ≠ key := by
    rintro en hen rfl
    have := find_of_mem h.toInv hen
    obtain ⟨_, _, hsome⟩ := h.sound en hen
    rw [this, hsome] at hfind
    simp at hfind
  have hswap : ∃ acc, swapdown t.size t.table t.maxdistance
      (el.fill (t.hashing key) key (some d)) = .ok acc := by
    unfold add addHash at hret
    rw [if_neg (by have := hv.2; omega)] at hret
    obtain ⟨acc, hacc, _⟩ := Runs.bind_eq_ok.mp hret
    exact ⟨acc, hacc⟩
  obtain ⟨acc, hacc⟩ := hswap
  obtain ⟨u, hadd, hi, hkind, hroom, he⟩ := add_of_swapdown stale h.toInv hv hs hnew hacc
  rw [hadd] at hret
  cases hret
  refine ⟨rfl, holds_of_add h hm hi hkind he, hkind, hroom, ?_⟩
  rw [← hi.count, he, Multiset.card_add, h.count, Multiset.card_singleton, add_comm]

/-- With a free slot the call returns. -/
theorem addUnique_total (d : δ) (el : Element δ) (stale : Nat → Element δ) {t : Hash δ}
    {m : List Byte → Option δ} (h : Holds t m) (hroom : t.count < t.size) {key : List Byte}
    (hv : ValidKey t.keySize key) (hs : SizesFit t) :
    ∃ ru, addUnique t key (some d) ⟨some el, some stale⟩ = .ok ru := by
  unfold addUnique
  split
  · exact ⟨_, rfl⟩
  · next hfind =>
    have hnew : ∀ en ∈ entries t.size t.table, en.key ≠ key := by
      rintro en hen rfl
      obtain ⟨_, _, hsome⟩ := h.sound en hen
      rw [find_of_mem h.toInv hen] at hfind
      exact hfind hsome
    obtain ⟨acc, hacc⟩ := swapdown_total (el.fill (t.hashing key) key (some d)) h.pow
      (by rw [h.count]; exact hroom)
    obtain ⟨u, hadd, _⟩ := add_of_swapdown stale h.toInv hv hs hnew hacc
    exact ⟨_, hadd⟩

/-- One call of `rbhash_add_unique`, with the memory its allocations return. -/
structure Call (δ : Type) where
  key : List Byte
  data : δ
  el : Element δ
  newtable : Nat → Element δ

/-- The call and what it returns. -/
def Call.run (t : Hash δ) (c : Call δ) : Except Exit (Int × Hash δ) :=
  addUnique t c.key (some c.data) ⟨some c.el, some c.newtable⟩

def Call.step (t : Hash δ) (c : Call δ) : Except Exit (Hash δ) :=
  c.run t >>= fun r => pure r.2

/-- The map after a sequence of calls: of several for one key, the first counts. -/
def firstData (calls : List (Call δ)) (key : List Byte) : Option δ :=
  (calls.find? (fun c => c.key = key)).map Call.data

/-- A call for a new key does not ask for more than `2^31` slots. -/
def Fits (t : Hash δ) (c : Call δ) : Prop := (find t c.key).isSome ∨ SizesFit t

instance (t : Hash δ) (c : Call δ) : Decidable (Fits t c) := inferInstanceAs (Decidable (_ ∨ _))

theorem firstData_none_iff {calls : List (Call δ)} {key : List Byte} :
    firstData calls key = none ↔ key ∉ calls.map Call.key := by
  simp [firstData, List.find?_eq_none]

theorem firstData_snoc (calls : List (Call δ)) (c : Call δ) :
    firstData (calls ++ [c]) =
      if c.key ∈ calls.map Call.key then firstData calls
      else Function.update (firstData calls) c.key (some c.data) := by
  funext key
  have happ : firstData (calls ++ [c]) key =
      (firstData calls key).or (if c.key = key then some c.data else none) := by
    unfold firstData
    rw [List.find?_append]
    cases calls.find? (fun c => c.key = key) with
    | some x => rfl
    | none => by_cases h : c.key = key <;> simp [h]
  rw [happ]
  by_cases h : c.key ∈ calls.map Call.key
  · rw [if_pos h]
    by_cases hk : c.key = key
    · subst hk
      cases hf : firstData calls c.key with
      | none => exact absurd h (firstData_none_iff.mp hf)
      | some d => rfl
    · simp [hk]
  · rw [if_neg h]
    by_cases hk : c.key = key
    · subst hk
      simp [firstData_none_iff.mpr h]
    · simp [hk, Function.update_of_ne (Ne.symm hk)]

/-- A new table stands for the empty map. -/
theorem holds_new (size min keysize : Nat) (hashing : List Byte → BitVec 32) (del : Bool)
    (stale : Nat → Element δ) (h₁ : 1 ≤ size) (h₂ : size ≤ 2 ^ 31) (hk : keysize < 2 ^ 32) :
    Holds (new size min keysize hashing del stale) (fun _ => none) := by
  have he : entries (roundUpPowTwo32 size) (clear (roundUpPowTwo32 size) stale) = 0 :=
    entries_clear _ _
  refine ⟨⟨(roundUpPowTwo32_spec h₁ h₂).1, hk, ?_, ?_, ?_, ?_⟩, ?_⟩
  · intro s hs hl
    have hs' : s < roundUpPowTwo32 size := hs
    exact absurd (by simp [new, clear, hs']) hl
  all_goals simp [new, he]

section Adds

variable {size min keysize : Nat} {hashing : List Byte → BitVec 32} {del : Bool}
  {stale : Nat → Element δ}

/-- The table after any sequence of calls, by induction on the last of them. -/
theorem run_holds (h₁ : 1 ≤ size) (h₂ : size ≤ 2 ^ 31) (hmin : 1 ≤ min)
    (hk : keysize ≤ 2 ^ 31) {calls : List (Call δ)} (hv : ∀ c ∈ calls, ValidKey keysize c.key)
    (hfit : Runs.Along Call.step Fits calls (new size min keysize hashing del stale)) :
    ∃ t, Runs.run Call.step calls (new size min keysize hashing del stale) = .ok t ∧
      Holds t (firstData calls) ∧ SameKind (new size min keysize hashing del stale) t ∧
      t.count < t.size ∧ t.count = (calls.map Call.key).toFinset.card := by
  induction calls using List.reverseRecOn with
  | nil =>
    have hn := holds_new size min keysize hashing del stale h₁ h₂ (by omega)
    exact ⟨_, rfl, hn, .refl _, hn.pow.pos, rfl⟩
  | append_singleton calls c ih =>
    obtain ⟨hfit, hlast⟩ := (Runs.along_append Call.step).mp hfit
    obtain ⟨t, hrun, hh, hkind, hroom, hcount⟩ := ih (fun c hc => hv c (by simp [hc])) hfit
    have hvc : ValidKey t.keySize c.key := by
      rw [hkind.2.1]
      exact hv c (by simp)
    have hm : t.min ≠ 0 := by
      rw [hkind.2.2.1]
      simp only [new]
      omega
    rw [Runs.run_append, hrun, firstData_snoc]
    simp only [Runs.ok_bind, Runs.run_cons, Call.step, Call.run]
    split
    · next hmem =>
      obtain ⟨d, hd⟩ := Option.ne_none_iff_exists'.mp (mt firstData_none_iff.mp (not_not.mpr hmem))
      have hset : (calls ++ [c]).map Call.key = calls.map Call.key ++ [c.key] := by simp
      have hfin : (calls.map Call.key ++ [c.key]).toFinset = (calls.map Call.key).toFinset := by
        rw [List.toFinset_append]
        exact Finset.union_eq_left.mpr (by simpa using hmem)
      rw [addUnique_present hh hvc.ne_nil hd, hset, hfin]
      exact ⟨t, rfl, hh, hkind, hroom, hcount⟩
    · next hmem =>
      have hnone := firstData_none_iff.mpr hmem
      have hs : SizesFit t := by
        have := (hlast t hrun).1
        rw [Fits, find_eq hh hvc.ne_nil, hnone] at this
        simpa using this
      obtain ⟨ru, hret⟩ := addUnique_total c.data c.el c.newtable
        hh hroom hvc hs
      obtain ⟨_, hh', hkind', hroom', hcount'⟩ := addUnique_absent hh hvc hnone hs hret
      refine ⟨ru.2, by rw [hret]; rfl, hh', hkind.trans hkind', hroom' hm, ?_⟩
      have hset : ((calls ++ [c]).map Call.key).toFinset =
          insert c.key (calls.map Call.key).toFinset := by
        ext k
        simp
      rw [hcount', hcount, hset, Finset.card_insert_of_notMem (by simpa using hmem)]

/-- The table refines a finite map across growth: whatever the hash function and
the bytes of fresh memory, every call answers as the map would, no call reaches
the exit, and afterwards every lookup is the map's. -/
theorem addUnique_refines_map (hsize : 1 ≤ size ∧ size ≤ 2 ^ 31) (hmin : 1 ≤ min ∧ min ≤ 100)
    (hkey : 1 ≤ keysize ∧ keysize ≤ 2 ^ 31) (calls : List (Call δ))
    (hv : ∀ c ∈ calls, ValidKey keysize c.key)
    (hfit : Runs.Along Call.step Fits calls (new size min keysize hashing del stale)) :
    ∃ t, Runs.run Call.step calls (new size min keysize hashing del stale) = .ok t ∧
      (∀ key, key ≠ [] → find t key = firstData calls key) ∧
      t.count = (calls.map Call.key).toFinset.card ∧
      ∀ front c rest, calls = front ++ c :: rest →
        ∃ u, Runs.run Call.step front (new size min keysize hashing del stale) = .ok u ∧
          (c.key ∉ front.map Call.key ∧ (∃ u', c.run u = .ok (0, u')) ∨
            c.key ∈ front.map Call.key ∧ c.run u = .ok (-1, u)) := by
  obtain ⟨t, hrun, hh, _, _, hcount⟩ := run_holds hsize.1 hsize.2 hmin.1 hkey.2 hv hfit
  refine ⟨t, hrun, fun key hk => find_eq hh hk, hcount, ?_⟩
  rintro front c rest rfl
  obtain ⟨hfront, hlast⟩ := (Runs.along_append Call.step).mp hfit
  obtain ⟨u, hrun, hh, hkind, hroom, _⟩ :=
    run_holds hsize.1 hsize.2 hmin.1 hkey.2 (fun c hc => hv c (by simp [hc])) hfront
  have hvc : ValidKey u.keySize c.key := by
    rw [hkind.2.1]
    exact hv c (by simp)
  refine ⟨u, hrun, ?_⟩
  by_cases hmem : c.key ∈ front.map Call.key
  · obtain ⟨d, hd⟩ := Option.ne_none_iff_exists'.mp (mt firstData_none_iff.mp (not_not.mpr hmem))
    exact .inr ⟨hmem, addUnique_present hh hvc.ne_nil hd _ _⟩
  · have hnone := firstData_none_iff.mpr hmem
    have hs : SizesFit u := by
      have := (hlast u hrun).1
      rw [Fits, find_eq hh hvc.ne_nil, hnone] at this
      simpa using this
    obtain ⟨⟨r, u'⟩, hret⟩ := addUnique_total c.data c.el c.newtable
      hh hroom hvc hs
    obtain ⟨rfl, _⟩ := addUnique_absent hh hvc hnone hs hret
    exact .inl ⟨hmem, u', hret⟩

end Adds

/-- Memory whose every byte is `7`, so that every stale element looks occupied. -/
def staleElement : Element Nat := ⟨some 7, 7, 7, 7, fun _ => 7⟩

/-- Three keys of one hash, the first of them twice: in a table of one slot every new
key makes the table grow, into memory full of stale keys. -/
def staleCalls : List (Call Nat) :=
  [([1], 10), ([2], 20), ([1], 30), ([3], 40)].map fun (key, data) =>
    ⟨key, data, staleElement, fun _ => staleElement⟩

theorem staleCalls_fit : Runs.Along Call.step Fits staleCalls
    (new 1 10 4 (fun _ => 0) false fun _ => staleElement) := by
  decide +kernel

theorem addUnique_refines_map_stale :
    let t₀ := new 1 10 4 (fun _ => 0) false (fun _ => staleElement)
    ∃ t, Runs.run Call.step staleCalls t₀ = .ok t ∧
      (∀ key, key ≠ [] → find t key = firstData staleCalls key) ∧
      t.count = (staleCalls.map Call.key).toFinset.card ∧
      ∀ front c rest, staleCalls = front ++ c :: rest → ∃ u, Runs.run Call.step front t₀ = .ok u ∧
        (c.key ∉ front.map Call.key ∧ (∃ u', c.run u = .ok (0, u')) ∨
          c.key ∈ front.map Call.key ∧ c.run u = .ok (-1, u)) :=
  addUnique_refines_map (by decide) (by decide) (by decide) _ (by decide) staleCalls_fit

end Rbhash
