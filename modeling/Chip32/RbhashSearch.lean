import Chip32.RbhashMap

/-!
# Searching for duplicates

`rbhash_search_continue` goes on where it stopped. The whole search passes
`maxdistance + 1` slots, which are never more than the table has, and so meets each
entry of its key once.
-/
namespace Rbhash

variable {δ : Type}

/-- `rbhashSearch_s`; its `table` is the element of `slot`. -/
structure Search where
  slot : Nat
  hash : BitVec 32
  key : List Byte
  maxscan : Nat

/-- `rbhash_search_bucket`. The scan count is decremented once more as it runs out. -/
def searchLoop (t : Hash δ) : Nat → Search → Option Nat × Search
  | 0, s => (none, { s with maxscan := 2 ^ 64 - 1 })
  | k + 1, s =>
    let next := { s with slot := slotNext t.size s.slot, maxscan := k }
    if elementMatches t s.hash s.key s.slot then (some s.slot, next) else searchLoop t k next

def searchBucket (t : Hash δ) (s : Search) : Option Nat × Search := searchLoop t s.maxscan s

/-- `rbhash_search_new`, which has its memory. -/
def searchNew (t : Hash δ) (key : List Byte) : Search where
  slot := slot (t.hashing key).toNat t.size
  hash := t.hashing key
  key := key
  maxscan := t.maxdistance + 1

/-- `rbhash_search_continue`. -/
def searchContinue (t : Hash δ) (s : Search) : Option δ × Search :=
  match searchBucket t s with
  | (none, s) => (none, s)
  | (some b, s) => ((t.table b).data, s)

/-- The results of `rbhash_search_continue` up to the first NULL. -/
inductive Answers (t : Hash δ) : Search → List δ → Prop where
  | done {s : Search} : (searchContinue t s).1 = none → Answers t s []
  | more {s : Search} {d : δ} {ds : List δ} : (searchContinue t s).1 = some d →
      Answers t (searchContinue t s).2 ds → Answers t s (d :: ds)

section Search

variable {t : Hash δ} {s : Search} {k : Nat}

/-- The slots that a search will stop at. -/
def stops (t : Hash δ) (s : Search) : List Nat :=
  Ring.hits (slotNext t.size) (elementMatches t s.hash s.key) s.maxscan s.slot

theorem Answers.congr {s s' : Search} {ds : List δ} (h : searchContinue t s = searchContinue t s')
    (ha : Answers t s' ds) : Answers t s ds := by
  cases ha with
  | done hn => exact .done (h ▸ hn)
  | more hd ha =>
    rw [← h] at hd ha
    exact .more hd ha

/-- A search answers with the data of the slots it stops at, if none of it is NULL. -/
theorem answers_stops (hdata : ∀ b ∈ stops t s, ((t.table b).data).isSome) :
    Answers t s ((stops t s).filterMap fun b => (t.table b).data) := by
  induction hk : s.maxscan generalizing s with
  | zero =>
    have hstops : stops t s = [] := by rw [stops, hk]; rfl
    have hnone : (searchContinue t s).1 = none := by
      rw [searchContinue, searchBucket, hk]
      rfl
    rw [hstops]
    exact .done hnone
  | succ k ih =>
    have ih := ih (s := { s with slot := slotNext t.size s.slot, maxscan := k })
    by_cases hm : elementMatches t s.hash s.key s.slot = true
    · have hstops : stops t s =
          s.slot :: stops t { s with slot := slotNext t.size s.slot, maxscan := k } := by
        rw [stops, hk, Ring.hits, if_pos hm]
        rfl
      have hcont : searchContinue t s = ((t.table s.slot).data,
          { s with slot := slotNext t.size s.slot, maxscan := k }) := by
        rw [searchContinue, searchBucket, hk, searchLoop, if_pos hm]
      rw [hstops] at hdata ⊢
      obtain ⟨d, hd⟩ := Option.isSome_iff_exists.mp (hdata _ List.mem_cons_self)
      have hcons := List.filterMap_cons_some (f := fun b => (t.table b).data)
        (l := stops t { s with slot := slotNext t.size s.slot, maxscan := k }) hd
      rw [hcons]
      refine .more (by rw [hcont, hd]) ?_
      rw [hcont]
      exact ih (fun b hb => hdata b (List.mem_cons_of_mem _ hb)) rfl
    · have hstops : stops t s = stops t { s with slot := slotNext t.size s.slot, maxscan := k } := by
        rw [stops, hk, Ring.hits, if_neg hm]
        rfl
      have hcont : searchContinue t s =
          searchContinue t { s with slot := slotNext t.size s.slot, maxscan := k } := by
        rw [searchContinue, searchContinue, searchBucket, searchBucket, hk, searchLoop, if_neg hm]
      rw [hstops] at hdata ⊢
      exact .congr hcont (ih hdata rfl)

/-- The slots of a key, each once. -/
theorem stops_eq (hp : PowTwo t.size) (hr : Reach t.size t.table t.maxdistance) {key : List Byte}
    (hk : key ≠ []) : (stops t (searchNew t key) : Multiset Nat) =
      ((Finset.range t.size).filter fun b => elementMatches t (t.hashing key) key b = true).val := by
  have hnext := slotNext_eq hp
  have hslot := slot_lt hp (t.hashing key).toNat
  have hscan : t.maxdistance + 1 ≤ t.size := hr.near
  refine (Multiset.Nodup.ext ?_ (Finset.nodup _)).mpr fun b => ?_
  · exact Multiset.coe_nodup.mpr (Ring.nodup_hits _ _ hnext hscan hslot)
  · rw [Multiset.mem_coe, stops, searchNew, Ring.mem_hits _ _ hnext hscan hslot, Finset.mem_val,
      Finset.mem_filter, Finset.mem_range]
    refine ⟨fun h => ⟨h.1, h.2.2⟩, fun h => ⟨h.1, ?_, h.2⟩⟩
    obtain ⟨hl, _, hh⟩ := (elementMatches_iff hk).mp h.2
    have hnear := (hr.fit b h.1).near hl hp.pos
    rw [hh] at hnear
    exact Nat.lt_succ_of_le hnear

/-- What the entries of a key hold, slot by slot. -/
theorem entries_filter (t : Hash δ) (hash : BitVec 32) {key : List Byte} (hk : key ≠ []) :
    ((entries t.size t.table).filter fun en => en.key = key ∧ en.hash = hash).map Entry.data =
      (((Finset.range t.size).filter fun b => elementMatches t hash key b = true).val).map
        fun b => (t.table b).data := by
  have hone : ∀ b, ((held (t.table b)).filter fun en => en.key = key ∧ en.hash = hash).map Entry.data =
      if elementMatches t hash key b = true then {(t.table b).data} else 0 := by
    intro b
    by_cases hl : (t.table b).len = 0
    · have hno : ¬ elementMatches t hash key b = true := fun hm => ((elementMatches_iff hk).mp hm).1 hl
      rw [held_empty hl, if_neg hno]
      rfl
    · have hiff : elementMatches t hash key b = true ↔
          (t.table b).entry.key = key ∧ (t.table b).entry.hash = hash :=
        (elementMatches_iff hk).trans (and_iff_right hl)
      rw [held_live hl, Multiset.filter_singleton]
      by_cases hm : elementMatches t hash key b = true
      · rw [if_pos hm, if_pos (hiff.mp hm)]
        rfl
      · rw [if_neg hm, if_neg (mt hiff.mpr hm)]
        rfl
  have hsum : ∀ S : Finset ℕ,
      ((∑ b ∈ S, held (t.table b)).filter fun en => en.key = key ∧ en.hash = hash).map Entry.data =
        ((S.filter fun b => elementMatches t hash key b = true).val).map fun b => (t.table b).data := by
    intro S
    induction S using Finset.cons_induction with
    | empty => rfl
    | cons b S hb ih =>
      rw [Finset.sum_cons, Multiset.filter_add, Multiset.map_add, ih, hone, Finset.filter_cons]
      split
      · rw [Finset.cons_val, Multiset.map_cons, Multiset.singleton_add]
      · rw [zero_add]
  exact hsum _

end Search

/-- `rbhash_add`, with memory. -/
def Call.add (t : Hash δ) (c : Call δ) : Except Exit (Hash δ) :=
  Rbhash.add t c.key (some c.data) ⟨some c.el, some c.newtable⟩ >>= fun r => pure r.2

def Call.entry (hashing : List Byte → BitVec 32) (c : Call δ) : Entry δ :=
  ⟨c.key, hashing c.key, some c.data⟩

/-- The table has all that was added, as often as it was, and room for more. -/
structure Keeps (t : Hash δ) (calls : List (Call δ)) : Prop where
  pow : PowTwo t.size
  reach : Reach t.size t.table t.maxdistance
  room : calls.length < t.size
  count : t.count = calls.length
  content : entries t.size t.table = (calls.map (Call.entry t.hashing) : Multiset (Entry δ))

section Adds

variable {size min keysize : Nat} {hashing : List Byte → BitVec 32} {del : Bool}
  {stale : Nat → Element δ} {t : Hash δ} {calls : List (Call δ)} {c : Call δ}

theorem keeps_new (h₁ : 1 ≤ size) (h₂ : size ≤ 2 ^ 31) :
    Keeps (new size min keysize hashing del stale) [] := by
  have hp : PowTwo (roundUpPowTwo32 size) := (roundUpPowTwo32_spec h₁ h₂).1
  exact ⟨hp, reach_clear _ stale hp.pos, hp.pos, rfl, entries_clear _ _⟩

theorem Keeps.add (h : Keeps t calls) (hm : t.min ≠ 0) (hks : t.keySize < 2 ^ 32)
    (hv : ∀ c ∈ calls, ValidKey t.keySize c.key) (hvc : ValidKey t.keySize c.key) (hs : SizesFit t) :
    ∃ u, c.add t = .ok u ∧ SameKind t u ∧ Keeps u (calls ++ [c]) := by
  have hcard : Multiset.card (entries t.size t.table) < t.size := by
    rw [h.content, Multiset.coe_card, List.length_map]
    exact h.room
  have hkeyed : ∀ en ∈ entries t.size t.table, en.Keyed := by
    intro en hen
    rw [h.content, Multiset.mem_coe] at hen
    obtain ⟨c, hc, rfl⟩ := List.mem_map.mp hen
    exact (hv c hc).1
  obtain ⟨u, hadd, hkind, hcount, hp, hr, hroom, he⟩ := addHash_stored (t.hashing c.key)
    (some c.data) (a := ⟨some c.el, some c.newtable⟩) h.pow h.reach (exists_empty hcard) hvc.2
    rfl hvc.ne_nil (Nat.lt_of_le_of_lt hvc.2 hks) hs
    fun _ => ⟨Option.some_ne_none _, hvc.1, hkeyed⟩
  have hlen : (calls ++ [c]).length = u.count := by
    rw [hcount, h.count, List.length_append]
    rfl
  have hrun : Rbhash.add t c.key (some c.data) ⟨some c.el, some c.newtable⟩ = .ok (0, u) := hadd
  refine ⟨u, by rw [Call.add, hrun]; rfl, hkind, hp, hr, ?_, hlen.symm, ?_⟩
  · rw [hlen]
    exact hroom hm (h.count ▸ h.room)
  · rw [he, h.content, hkind.1, List.map_append, ← Multiset.coe_add, add_comm]
    rfl

theorem keeps_run (h₁ : 1 ≤ size) (h₂ : size ≤ 2 ^ 31) (hmin : 1 ≤ min) (hks : keysize < 2 ^ 32)
    (hv : ∀ c ∈ calls, ValidKey keysize c.key)
    (hfit : Runs.Along Call.add (fun t _ => SizesFit t) calls
      (new size min keysize hashing del stale)) :
    ∃ t, Runs.run Call.add calls (new size min keysize hashing del stale) = .ok t ∧
      SameKind (new size min keysize hashing del stale) t ∧ Keeps t calls := by
  induction calls using List.reverseRecOn with
  | nil => exact ⟨_, rfl, .refl _, keeps_new h₁ h₂⟩
  | append_singleton calls c ih =>
    obtain ⟨hfit, hlast⟩ := (Runs.along_append Call.add).mp hfit
    obtain ⟨t, hrun, hkind, hkeeps⟩ := ih (fun c hc => hv c (by simp [hc])) hfit
    have hkey : t.keySize = keysize := hkind.2.1
    have hm : t.min ≠ 0 := by
      have hmin' : t.min = min := hkind.2.2.1
      omega
    obtain ⟨u, hadd, hkind', hkeeps'⟩ := hkeeps.add (c := c) hm (hkey ▸ hks)
      (fun c hc => hkey ▸ hv c (by simp [hc])) (hkey ▸ hv c (by simp)) (hlast t hrun).1
    exact ⟨u, (Runs.run_snoc_ok Call.add).mpr ⟨t, hrun, hadd⟩, hkind.trans hkind', hkeeps'⟩

/-- A search answers with the data that was added under its key, as often as it was. -/
theorem Keeps.answers (h : Keeps t calls) {key : List Byte} (hk : key ≠ []) :
    ∃ ds, Answers t (searchNew t key) ds ∧
      (ds : Multiset δ) = ((calls.filter fun c => c.key = key).map Call.data : List δ) := by
  have hstops := stops_eq h.pow h.reach hk
  have hdata := entries_filter t (t.hashing key) hk
  have hcalls : ((entries t.size t.table).filter fun en => en.key = key ∧
      en.hash = t.hashing key).map Entry.data =
      (((calls.filter fun c => c.key = key).map fun c => some c.data : List (Option δ)) :
        Multiset (Option δ)) := by
    rw [h.content, Multiset.filter_coe, Multiset.map_coe, List.filter_map, List.map_map]
    congr 2
    refine List.filter_congr fun c _ => ?_
    have hiff : c.key = key ↔ c.key = key ∧ t.hashing c.key = t.hashing key :=
      ⟨fun he => ⟨he, congrArg t.hashing he⟩, fun he => he.1⟩
    exact (decide_eq_decide.mpr hiff).symm
  rw [hcalls, ← hstops, Multiset.map_coe] at hdata
  have hsome : ∀ b ∈ stops t (searchNew t key), ((t.table b).data).isSome := by
    intro b hb
    have hmem : (t.table b).data ∈ (stops t (searchNew t key)).map fun b => (t.table b).data :=
      List.mem_map_of_mem hb
    rw [← Multiset.mem_coe, ← hdata, Multiset.mem_coe] at hmem
    obtain ⟨c, _, he⟩ := List.mem_map.mp hmem
    rw [← he]
    rfl
  refine ⟨_, answers_stops hsome, ?_⟩
  have hperm := (Multiset.coe_eq_coe.mp hdata).filterMap id
  rw [List.filterMap_map, List.filterMap_map] at hperm
  have hmap := congrFun (List.filterMap_eq_map (f := Call.data)) (calls.filter fun c => c.key = key)
  exact (Multiset.coe_eq_coe.mpr hperm).symm.trans (congrArg _ hmap)

/-- The search is complete and does not repeat itself: after any additions, duplicates
included, in whatever memory, it answers with what was added under its key. -/
theorem search_complete (hsize : 1 ≤ size ∧ size ≤ 2 ^ 31) (hmin : 1 ≤ min ∧ min ≤ 100)
    (hkey : 1 ≤ keysize ∧ keysize ≤ 2 ^ 31) (calls : List (Call δ))
    (hv : ∀ c ∈ calls, ValidKey keysize c.key)
    (hfit : Runs.Along Call.add (fun t _ => SizesFit t) calls
      (new size min keysize hashing del stale)) :
    ∃ t, Runs.run Call.add calls (new size min keysize hashing del stale) = .ok t ∧
      ∀ key, key ≠ [] → ∃ ds, Answers t (searchNew t key) ds ∧
        (ds : Multiset δ) = ((calls.filter fun c => c.key = key).map Call.data : List δ) := by
  obtain ⟨t, hrun, _, hkeeps⟩ := keeps_run hsize.1 hsize.2 hmin.1 (by omega) hv hfit
  exact ⟨t, hrun, fun key hk => hkeeps.answers hk⟩

end Adds

/-- One key added twice, into a table of one slot that grows in between. -/
theorem search_complete_twice :
    let calls : List (Call Nat) :=
      [⟨[1], 10, staleElement, fun _ => staleElement⟩, ⟨[1], 20, staleElement, fun _ => staleElement⟩]
    let t₀ := new 1 10 4 (fun _ => 0) false (fun _ => staleElement)
    ∃ t, Runs.run Call.add calls t₀ = .ok t ∧
      ∀ key, key ≠ [] → ∃ ds, Answers t (searchNew t key) ds ∧
        (ds : Multiset Nat) = ((calls.filter fun c => c.key = key).map Call.data : List Nat) :=
  search_complete (by decide) (by decide) (by decide) _ (by decide)
    ⟨by decide, fun t ht => ⟨by
      have hs : ∀ u, (Call.add (new 1 10 4 (fun _ => 0) false fun _ => staleElement)
          ⟨[1], 10, staleElement, fun _ => staleElement⟩) = .ok u → SizesFit u := by
        intro u hu
        cases hu
        decide +kernel
      exact hs t ht, fun _ _ => trivial⟩⟩

end Rbhash
