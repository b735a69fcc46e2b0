import Chip32.RbhashGrowth
import Mathlib.Data.List.Induction

/-!
# Additions that fail

The new element is placed before the growth that can still fail, and a table without a
free slot ends the program. An addition is all or nothing exactly where neither comes up
and the entry is one that a growth takes along.
-/
namespace Rbhash

variable {δ : Type}

/-- Which of the three functions is called, `rbhash_add_hash` with the hash it is given. -/
inductive How where
  | hashed (hash : BitVec 32)
  | plain
  | unique
  deriving DecidableEq

/-- A call, with what its allocations return. -/
structure AddCall (δ : Type) where
  how : How
  key : List Byte
  data : Option δ
  alloc : Alloc δ

namespace AddCall

def hash (t : Hash δ) (c : AddCall δ) : BitVec 32 :=
  match c.how with
  | .hashed hash => hash
  | _ => t.hashing c.key

def run (t : Hash δ) (c : AddCall δ) : Except Exit (Int × Hash δ) :=
  match c.how with
  | .hashed hash => addHash t hash c.key c.data c.alloc
  | .plain => add t c.key c.data c.alloc
  | .unique => addUnique t c.key c.data c.alloc

def step (t : Hash δ) (c : AddCall δ) : Except Exit (Hash δ) := c.run t >>= fun r => pure r.2

/-- The entry that is to be stored. -/
def entry (t : Hash δ) (c : AddCall δ) : Entry δ := ⟨c.key, c.hash t, c.data⟩

/-- `rbhash_add_unique` finds the key. -/
def Refused (t : Hash δ) (c : AddCall δ) : Prop := c.how = .unique ∧ (find t c.key).isSome

/-- The call gets as far as an element to place. -/
def Places (t : Hash δ) (c : AddCall δ) : Prop :=
  ¬ c.Refused t ∧ c.key.length ≤ t.keySize ∧ c.alloc.el ≠ none

/-- A growth of the call does not ask for more than `2^31` slots. -/
def Fits (t : Hash δ) (c : AddCall δ) : Prop := c.Places t → SizesFit t

/-- What is placed is an entry, there is a slot for it, and a growth, if one follows, gets
its memory and takes the entry along. -/
def Safe (t : Hash δ) (c : AddCall δ) : Prop :=
  c.Places t → c.key ≠ [] ∧ c.key.length < 2 ^ 32 ∧ (∃ s < t.size, (t.table s).len = 0) ∧
    (Grows t → c.alloc.newtable ≠ none ∧ c.key.getD 0 0 ≠ 0)

/-- The call returns `0` and the entry is stored, or `-1` and nothing has changed. -/
def AllOrNothing (t : Hash δ) (c : AddCall δ) : Prop :=
  ∃ u, c.run t = .ok (0, u) ∧ c.entry t ∈ entries u.size u.table ∨
    c.run t = .ok (-1, u) ∧ entries u.size u.table = entries t.size t.table ∧ u.count = t.count

variable {t u : Hash δ} {c : AddCall δ} {el : Element δ}

theorem run_refused (h : c.Refused t) : c.run t = .ok (-1, t) := by
  rw [run, h.1]
  exact if_pos h.2

theorem run_eq (h : ¬ c.Refused t) : c.run t = addHash t (c.hash t) c.key c.data c.alloc := by
  unfold run AddCall.hash
  cases hhow : c.how with
  | hashed hash => rfl
  | plain => rfl
  | unique =>
    have hnew : ¬ (find t c.key).isSome := fun hf => h ⟨hhow, hf⟩
    exact if_neg hnew

/-- A call that places nothing returns `-1` and leaves the table as it was. -/
theorem run_unplaced (h : ¬ c.Places t) : c.run t = .ok (-1, t) := by
  by_cases hr : c.Refused t
  · exact run_refused hr
  · rw [run_eq hr]
    refine addHash_refused ?_
    by_contra hno
    obtain ⟨hlen, hel⟩ := not_or.mp hno
    exact h ⟨hr, Nat.not_lt.mp hlen, hel⟩

theorem run_placed (h : c.Places t) : ∃ el, c.run t =
    swapdown t.size t.table t.maxdistance (Element.fill el (c.hash t) c.key c.data) >>= fun acc =>
      if Grows t then upsize (placed t acc) c.alloc.newtable else .ok (0, placed t acc) := by
  obtain ⟨hr, hlen, hel⟩ := h
  obtain ⟨el, hel⟩ := Option.ne_none_iff_exists'.mp hel
  exact ⟨el, (run_eq hr).trans (addHash_eq hlen hel)⟩

end AddCall

/-- A table that additions lead to. -/
structure Sized (t : Hash δ) : Prop where
  pow : PowTwo t.size
  short : ∀ en ∈ entries t.size t.table, en.key.length < 2 ^ 32

theorem entry_ne_nil {size : Nat} {table : Nat → Element δ} {en : Entry δ}
    (h : en ∈ entries size table) : en.key ≠ [] := by
  obtain ⟨s, _, hl, rfl⟩ := mem_entries.mp h
  intro hnil
  have hlen : (table s).entry.key.length = (table s).len := by simp [Element.entry, Element.bytes]
  rw [hnil] at hlen
  exact hl hlen.symm

section Calls

variable {t u : Hash δ} {c : AddCall δ} {el : Element δ} {acc : (Nat → Element δ) × Nat}

theorem length_fill {hash : BitVec 32} {key : List Byte} {data : Option δ} {en : Entry δ}
    (h : en ∈ held (el.fill hash key data)) : en.key.length < 2 ^ 32 := by
  obtain ⟨_, rfl⟩ := mem_held.mp h
  have hlen : (el.fill hash key data).entry.key.length = key.length % 2 ^ 32 := by
    simp [Element.entry, Element.bytes, Element.fill]
  rw [hlen]
  exact Nat.mod_lt _ (by decide)

theorem Sized.placed (h : Sized t) {hash : BitVec 32} {key : List Byte} {data : Option δ}
    (hacc : swapdown t.size t.table t.maxdistance (el.fill hash key data) = .ok acc) :
    Sized (placed t acc) := by
  refine ⟨h.pow, fun en hen => ?_⟩
  have hen : en ∈ entries t.size acc.1 := hen
  rw [swapdown_content h.pow hacc] at hen
  rcases Multiset.mem_add.mp hen with hen | hen
  · exact length_fill hen
  · exact h.short en hen

theorem Sized.step (h : Sized t) (hfit : c.Fits t) (hstep : c.step t = .ok u) : Sized u := by
  obtain ⟨r, hrun, hu⟩ := Runs.bind_eq_ok.mp hstep
  cases hu
  by_cases hp : c.Places t
  · obtain ⟨el, heq⟩ := AddCall.run_placed hp
    rw [heq] at hrun
    obtain ⟨acc, hacc, hrun⟩ := Runs.bind_eq_ok.mp hrun
    split at hrun
    · next hg =>
      cases ht : c.alloc.newtable with
      | none =>
        rw [ht, upsize_failed hg] at hrun
        cases hrun
        exact h.placed hacc
      | some stale =>
        obtain ⟨v, hup, _, _, hpow, _, _, he⟩ := upsize_placed acc hg (hfit hp) stale
        rw [ht, hup] at hrun
        cases hrun
        refine ⟨hpow, fun en hen => ?_⟩
        rw [he] at hen
        exact (h.placed hacc).short en (Multiset.mem_of_mem_filter hen)
    · cases hrun
      exact h.placed hacc
  · rw [AddCall.run_unplaced hp] at hrun
    cases hrun
    exact h

theorem sized_new (size min keysize : Nat) (hashing : List Byte → BitVec 32) (del : Bool)
    (stale : Nat → Element δ) (h₁ : 1 ≤ size) (h₂ : size ≤ 2 ^ 31) :
    Sized (new size min keysize hashing del stale) := by
  refine ⟨(roundUpPowTwo32_spec h₁ h₂).1, fun en hen => ?_⟩
  have he : entries (roundUpPowTwo32 size) (clear (roundUpPowTwo32 size) stale) = 0 :=
    entries_clear _ _
  simp [new, he] at hen

theorem sized_run {size min keysize : Nat} {hashing : List Byte → BitVec 32} {del : Bool}
    {stale : Nat → Element δ} (h₁ : 1 ≤ size) (h₂ : size ≤ 2 ^ 31) {calls : List (AddCall δ)}
    (hfit : Runs.Along AddCall.step AddCall.Fits calls (new size min keysize hashing del stale))
    (hrun : Runs.run AddCall.step calls (new size min keysize hashing del stale) = .ok t) :
    Sized t := by
  induction calls using List.reverseRecOn generalizing t with
  | nil =>
    cases hrun
    exact sized_new size min keysize hashing del stale h₁ h₂
  | append_singleton calls c ih =>
    obtain ⟨hfit, hlast⟩ := (Runs.along_append AddCall.step).mp hfit
    obtain ⟨v, hv, hstep⟩ := (Runs.run_snoc_ok AddCall.step).mp hrun
    exact (ih hfit hv).step (hlast v hv).1 hstep

/-- A call that returns `0` has stored its entry, and nothing is lost if a growth loses
nothing. -/
theorem AddCall.stored (hp : PowTwo t.size) (hfit : c.Fits t) (hk : c.key ≠ [])
    (hshort : c.key.length < 2 ^ 32)
    (hgrow : Grows t → c.key.getD 0 0 ≠ 0 ∧ ∀ en ∈ entries t.size t.table, en.Keyed)
    (hrun : c.run t = .ok (0, u)) : PowTwo u.size ∧ SameKind t u ∧
      entries u.size u.table = {c.entry t} + entries t.size t.table := by
  by_cases hpl : c.Places t
  · obtain ⟨el, heq⟩ := AddCall.run_placed hpl
    rw [heq] at hrun
    obtain ⟨acc, hacc, hrun⟩ := Runs.bind_eq_ok.mp hrun
    have hc := swapdown_content hp hacc
    rw [held_fill el _ _ hk hshort] at hc
    split at hrun
    · next hg =>
      cases hnt : c.alloc.newtable with
      | none =>
        rw [hnt, upsize_failed hg] at hrun
        cases hrun
      | some stale =>
        obtain ⟨v, hup, hkind, _, hpow, _, _, he⟩ := upsize_placed acc hg (hfit hpl) stale
        rw [hnt, hup] at hrun
        cases hrun
        obtain ⟨hfirst, hkeyed⟩ := hgrow hg
        refine ⟨hpow, hkind, he.trans ?_⟩
        rw [hc]
        exact filter_keyed_add hfirst hkeyed
    · cases hrun
      exact ⟨hp, placed_sameKind, hc⟩
  · rw [AddCall.run_unplaced hpl] at hrun
    cases hrun

theorem AddCall.Safe.allOrNothing (hp : PowTwo t.size) (hfit : c.Fits t) (hs : c.Safe t) :
    c.AllOrNothing t := by
  by_cases hpl : c.Places t
  · obtain ⟨hk, hshort, hroom, hgrow⟩ := hs hpl
    obtain ⟨el, heq⟩ := AddCall.run_placed hpl
    obtain ⟨acc, hacc⟩ := swapdown_free t.maxdistance
      (Element.fill el (c.hash t) c.key c.data) hp hroom
    have hc := swapdown_content hp hacc
    rw [held_fill el _ _ hk hshort] at hc
    have hmem : c.entry t ∈ entries t.size acc.1 := by
      rw [hc]
      exact Multiset.mem_add.mpr (.inl (Multiset.mem_singleton_self _))
    rw [hacc, Runs.ok_bind] at heq
    by_cases hg : Grows t
    · obtain ⟨htable, hfirst⟩ := hgrow hg
      obtain ⟨stale, hstale⟩ := Option.ne_none_iff_exists'.mp htable
      obtain ⟨v, hup, _, _, _, _, _, he⟩ := upsize_placed acc hg (hfit hpl) stale
      rw [if_pos hg, hstale, hup] at heq
      refine ⟨v, .inl ⟨heq, ?_⟩⟩
      rw [he]
      exact Multiset.mem_filter.mpr ⟨hmem, hfirst⟩
    · rw [if_neg hg] at heq
      exact ⟨_, .inl ⟨heq, hmem⟩⟩
  · exact ⟨t, .inr ⟨AddCall.run_unplaced hpl, rfl, rfl⟩⟩

/-- What follows the placing, all or nothing: the entry is in the table that a growth gets,
and a growth keeps it. -/
theorem kept_of_grown (hs : SizesFit t) {acc : (Nat → Element δ) × Nat}
    {newtable : Option (Nat → Element δ)} {en : Entry δ} {r : Except Exit (Int × Hash δ)}
    (hr : r = if Grows t then upsize (placed t acc) newtable else .ok (0, placed t acc))
    (ha : r = .ok (0, u) ∧ en ∈ entries u.size u.table ∨
      r = .ok (-1, u) ∧ entries u.size u.table = entries t.size t.table ∧ u.count = t.count) :
    en ∈ entries t.size acc.1 ∧ (Grows t → newtable ≠ none ∧ en.Keyed) := by
  subst hr
  by_cases hg : Grows t
  · rw [if_pos hg] at ha
    cases newtable with
    | none =>
      rw [upsize_failed hg] at ha
      rcases ha with ⟨hrun, _⟩ | ⟨hrun, _, hcount⟩
      · cases hrun
      · cases hrun
        exact absurd hcount (Nat.succ_ne_self _)
    | some stale =>
      obtain ⟨v, hup, _, _, _, _, _, he⟩ := upsize_placed acc hg hs stale
      rw [hup] at ha
      rcases ha with ⟨hrun, hmem⟩ | ⟨hrun, _⟩
      · cases hrun
        rw [he] at hmem
        obtain ⟨hmem, hkeyed⟩ := Multiset.mem_filter.mp hmem
        exact ⟨hmem, fun _ => ⟨Option.some_ne_none stale, hkeyed⟩⟩
      · cases hrun
  · rw [if_neg hg] at ha
    rcases ha with ⟨hrun, hmem⟩ | ⟨hrun, _⟩
    · cases hrun
      exact ⟨hmem, fun hg' => absurd hg' hg⟩
    · cases hrun

theorem AddCall.AllOrNothing.safe (h : Sized t) (hfit : c.Fits t) (ha : c.AllOrNothing t) :
    c.Safe t := by
  intro hpl
  obtain ⟨el, heq⟩ := AddCall.run_placed hpl
  obtain ⟨u, ha⟩ := ha
  cases hswap : swapdown t.size t.table t.maxdistance (Element.fill el (c.hash t) c.key c.data) with
  | error e =>
    rw [heq, hswap] at ha
    rcases ha with ⟨hrun, _⟩ | ⟨hrun, _⟩ <;> cases hrun
  | ok acc =>
    rw [hswap, Runs.ok_bind] at heq
    obtain ⟨hmem, hgrow⟩ := kept_of_grown (hfit hpl) heq ha
    have hk : c.key ≠ [] := entry_ne_nil hmem
    have hshort : c.key.length < 2 ^ 32 := (h.placed hswap).short _ hmem
    refine ⟨hk, hshort, ?_, hgrow⟩
    by_contra hno
    have hfull : ∀ s < t.size, (t.table s).len ≠ 0 := fun s hs hz => hno ⟨s, hs, hz⟩
    have hlen : (Element.fill el (c.hash t) c.key c.data).len ≠ 0 := by
      have hmod : (Element.fill el (c.hash t) c.key c.data).len = c.key.length := Nat.mod_eq_of_lt hshort
      rw [hmod]
      exact mt List.length_eq_zero_iff.mp hk
    rw [swapdown_full h.pow hfull hlen] at hswap
    cases hswap

/-- Whatever was added before and whatever its allocations return, an addition is all or
nothing exactly if it places nothing, or places an entry in a free slot and a growth that
follows has its memory and keeps the entry. -/
theorem allOrNothing_iff {size min keysize : Nat} {hashing : List Byte → BitVec 32} {del : Bool}
    {stale : Nat → Element δ} (hsize : 1 ≤ size ∧ size ≤ 2 ^ 31) (calls : List (AddCall δ))
    (hfits : Runs.Along AddCall.step AddCall.Fits calls (new size min keysize hashing del stale))
    (hrun : Runs.run AddCall.step calls (new size min keysize hashing del stale) = .ok t)
    (hfit : c.Fits t) : c.AllOrNothing t ↔ c.Safe t := by
  have hs := sized_run hsize.1 hsize.2 hfits hrun
  exact ⟨fun ha => ha.safe hs hfit, fun hsafe => hsafe.allOrNothing hs.pow hfit⟩

end Calls

/-- Memory full of zeros. -/
def zeros : Element Nat := ⟨none, 0, 0, 0, fun _ => 0⟩

/-- One slot, and the table grows with its first element. -/
def oneSlot : Hash Nat := new 1 10 4 (fun _ => 0) false fun _ => zeros

/-- The growth gets its memory. -/
theorem allOrNothing_iff_grown :
    AddCall.AllOrNothing oneSlot ⟨.unique, [1], some 5, ⟨some zeros, some fun _ => zeros⟩⟩ :=
  (allOrNothing_iff (by decide) [] trivial rfl fun _ => by decide).mpr fun _ =>
    ⟨by decide, by decide, ⟨0, by decide⟩, fun _ => ⟨Option.some_ne_none _, by decide⟩⟩

/-- The growth fails, and the entry stays. -/
theorem growth_fails_late :
    ¬ AddCall.AllOrNothing oneSlot ⟨.unique, [1], some 5, ⟨some zeros, none⟩⟩ := by
  have hrun : ((AddCall.run oneSlot ⟨.unique, [1], some 5, ⟨some zeros, none⟩⟩).toOption.map
      fun r => (r.1, r.2.count)) = some (-1, 1) := by decide +kernel
  obtain ⟨r, hr, hret⟩ := Option.map_eq_some_iff.mp hrun
  obtain ⟨hret, hcount⟩ := Prod.mk.inj hret
  intro ha
  obtain ⟨u, ⟨hok, _⟩ | ⟨hok, _, hsame⟩⟩ := ha
  · rw [hok] at hr
    cases hr
    cases hret
  · rw [hok] at hr
    cases hr
    rw [hsame] at hcount
    cases hcount

end Rbhash
