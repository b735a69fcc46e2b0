import Chip32.RbhashTable

/-!
# Displacement, growth and lookup

`rbhash_swapdown` keeps the content and adds the element it carries; an element
without a key, which `rbhash_upsize` may pick up from stale memory, adds
nothing. What it does to the stored distances is enough for `rbhash_find`.
-/
namespace Rbhash

variable {δ : Type} {size md : Nat}

/-- A live element's stored distance is at most `maxdistance` and does not fall
short of the real one, unless a lookup scans the whole ring anyway. -/
def Fit (size md s : Nat) (e : Element δ) : Prop :=
  e.len ≠ 0 → e.distance ≤ md ∧
    (Ring.off size (slot e.hash.toNat size) s ≤ e.distance ∨ size ≤ md + 1)

theorem Fit.near {s : Nat} {e : Element δ} (h : Fit size md s e) (hl : e.len ≠ 0)
    (hn : 0 < size) : Ring.off size (slot e.hash.toNat size) s ≤ md := by
  obtain ⟨hd, hr | hr⟩ := h hl
  · omega
  · have := Ring.off_lt (slot e.hash.toNat size) s hn
    omega

theorem Fit.mono {s md' : Nat} {e : Element δ} (h : Fit size md s e) (hmd : md ≤ md') :
    Fit size md' s e := by
  intro hl
  obtain ⟨hd, hr⟩ := h hl
  exact ⟨by omega, by omega⟩

theorem fit_home {e : Element δ} (h : e.distance = 0) :
    Fit size md (slot e.hash.toNat size) e :=
  fun _ => ⟨by omega, .inl (by rw [Ring.off_self]; omega)⟩

/-- One slot further, one more on the stored distance. A distance that wraps
around its 32 bits has long made every lookup a full scan. -/
theorem Fit.next {s d : Nat} {e : Element δ} (h : Fit size md s e) (hp : PowTwo size)
    (hs : s < size) (hd : d = (e.distance + 1) % 2 ^ 32) :
    Fit size (max md d) (slotNext size s) { e with distance := d } := by
  intro hl
  obtain ⟨hle, hr⟩ := h hl
  have hoff := Ring.off_next_le (slot_lt hp e.hash.toNat) hs
  have hsize := hp.le
  refine ⟨by simp, ?_⟩
  simp only [slotNext_eq hp]
  by_cases hw : e.distance + 1 < 2 ^ 32
  · rw [Nat.mod_eq_of_lt hw] at hd
    omega
  · omega

theorem bytes_memswap (a b : Element δ) : (a.swapped b).bytes b.len = b.bytes b.len := by
  refine List.map_congr_left fun i hi => ?_
  have : i < b.len := List.mem_range.mp hi
  simp only [Element.swapped, memswap]
  rw [if_pos (by omega)]

/-- Changing places exchanges exactly what the two sides hold. -/
theorem held_swapped (a b : Element δ) : held (a.swapped b) = held b := by
  have hb : (a.swapped b).len = b.len := rfl
  by_cases h : b.len = 0
  · rw [held_empty h, held_empty (hb.trans h)]
  · rw [held_live h, held_live (by rwa [hb]), Element.entry, hb, bytes_memswap]
    rfl

theorem held_distance (e : Element δ) (d : Nat) : held { e with distance := d } = held e := rfl

/-- The loop of `rbhash_swapdown` between two turns. -/
structure WalkOk (size : Nat) (w : Walk δ) : Prop where
  bucket : w.bucket < size
  slots : ∀ s < size, Fit size w.maxdistance s (w.table s)
  nw : Fit size w.maxdistance w.bucket w.nw

/-- Whichever element is carried on, its distance grows by one at most. -/
theorem swapdownStep_distance (size : Nat) (w : Walk δ) :
    (swapdownStep size w).nw.distance ≤ w.nw.distance + 1 := by
  have hle : (if (w.table w.bucket).distance < w.nw.distance then
      w.nw.swapped (w.table w.bucket) else w.nw).distance ≤ w.nw.distance := by
    split
    · next hlt => exact Nat.le_of_lt hlt
    · exact Nat.le_refl _
  exact Nat.le_trans (Nat.mod_le _ _) (Nat.succ_le_succ hle)

theorem swapdownStep_maxdistance (size : Nat) (w : Walk δ) :
    (swapdownStep size w).maxdistance = max w.maxdistance (swapdownStep size w).nw.distance := by
  have hmax : (swapdownStep size w).maxdistance =
      if w.maxdistance < (swapdownStep size w).nw.distance then (swapdownStep size w).nw.distance
      else w.maxdistance := rfl
  rw [hmax]
  split <;> omega

theorem swapdownStep_ok {w : Walk δ} (hp : PowTwo size) (h : WalkOk size w) :
    WalkOk size (swapdownStep size w) := by
  have htbl := h.slots w.bucket h.bucket
  have hmax := swapdownStep_maxdistance size w
  refine ⟨slotNext_lt hp w.bucket, fun s hs => ?_, ?_⟩
  · refine Fit.mono ?_ (hmax ▸ Nat.le_max_left _ _)
    simp only [swapdownStep]
    split
    · by_cases he : s = w.bucket
      · subst he
        rw [Function.update_self]
        exact h.nw
      · rw [Function.update_of_ne he]
        exact h.slots s hs
    · exact h.slots s hs
  · rw [hmax]
    simp only [swapdownStep]
    refine Fit.next ?_ hp h.bucket rfl
    split
    · exact htbl
    · exact h.nw

theorem swapdownStep_content {w : Walk δ} (h : w.bucket < size) :
    entries size (swapdownStep size w).table + held (swapdownStep size w).nw =
      entries size w.table + held w.nw := by
  simp only [swapdownStep, held_distance]
  split
  · rw [held_swapped, entries_update _ _ h, held_swapped]
  · rfl

theorem swapdownStep_other {w : Walk δ} {s : Nat} (h : s ≠ w.bucket) :
    (swapdownStep size w).table s = w.table s := by
  simp only [swapdownStep]
  split
  · rw [Function.update_of_ne h]
  · rfl

theorem swapdownLoop_ok {w : Walk δ} (hp : PowTwo size) (h : WalkOk size w) (k : Nat) :
    WalkOk size (swapdownLoop size k w) := by
  induction k generalizing w with
  | zero => exact h
  | succ k ih =>
    unfold swapdownLoop
    split
    · exact ih (swapdownStep_ok hp h)
    · exact h

theorem swapdownLoop_content {w : Walk δ} (hp : PowTwo size) (hb : w.bucket < size) (k : Nat) :
    (swapdownLoop size k w).bucket < size ∧
    entries size (swapdownLoop size k w).table + held (swapdownLoop size k w).nw =
      entries size w.table + held w.nw := by
  induction k generalizing w with
  | zero => exact ⟨hb, rfl⟩
  | succ k ih =>
    unfold swapdownLoop
    split
    · obtain ⟨hb', hc⟩ := ih (w := swapdownStep size w) (slotNext_lt hp w.bucket)
      exact ⟨hb', hc.trans (swapdownStep_content hb)⟩
    · exact ⟨hb, rfl⟩

/-- In a full table no turn makes room. -/
theorem swapdownLoop_full {w : Walk δ} (hp : PowTwo size) (hb : w.bucket < size)
    (hfull : ∀ s < size, (w.table s).len ≠ 0) (hnw : w.nw.len ≠ 0) (k : Nat) :
    ((swapdownLoop size k w).table (swapdownLoop size k w).bucket).len ≠ 0 := by
  induction k generalizing w with
  | zero => exact hfull w.bucket hb
  | succ k ih =>
    rw [swapdownLoop, if_pos (hfull w.bucket hb)]
    refine ih (slotNext_lt hp w.bucket) (fun s hs => ?_) ?_
    · by_cases he : s = w.bucket
      · subst he
        simp only [swapdownStep]
        split
        · rw [Function.update_self]
          exact hnw
        · exact hfull _ hs
      · rw [swapdownStep_other he]
        exact hfull s hs
    · simp only [swapdownStep]
      split
      · exact hfull w.bucket hb
      · exact hnw

/-- A turn does not touch an empty slot ahead, and comes one slot closer to it. -/
theorem swapdownStep_ahead {w : Walk δ} (hp : PowTwo size) (hb : w.bucket < size) {d : Nat}
    (hd : d + 1 < size) (he : (w.table ((w.bucket + (d + 1)) % size)).len = 0) :
    ((swapdownStep size w).table (((swapdownStep size w).bucket + d) % size)).len = 0 := by
  have hnext : (swapdownStep size w).bucket = (w.bucket + 1) % size := slotNext_eq hp _
  have hback : (w.bucket + (d + 1)) % size ≠ w.bucket := by
    intro hback
    have hoff := Ring.off_add hb hd
    rw [hback, Ring.off_self] at hoff
    omega
  rwa [hnext, Ring.next_add, swapdownStep_other hback]

/-- The element that is carried is never further from its home than the loop has turns. -/
theorem swapdownLoop_near {w : Walk δ} (hp : PowTwo size) (hb : w.bucket < size) {d k : Nat}
    (hd : d < size) (he : (w.table ((w.bucket + d) % size)).len = 0) :
    (swapdownLoop size k w).maxdistance ≤ max w.maxdistance (w.nw.distance + d) := by
  induction k generalizing w d with
  | zero => exact Nat.le_max_left _ _
  | succ k ih =>
    unfold swapdownLoop
    split
    · next hl =>
      cases d with
      | zero =>
        rw [Nat.add_zero, Nat.mod_eq_of_lt hb] at he
        exact absurd he hl
      | succ d =>
        have hstep := ih (w := swapdownStep size w) (slotNext_lt hp w.bucket) (d := d) (by omega)
          (swapdownStep_ahead hp hb hd he)
        have hnear := swapdownStep_distance size w
        have hmax := swapdownStep_maxdistance size w
        omega
    · exact Nat.le_max_left _ _

/-- The loop stops at the first empty slot ahead, which no turn before it touches. -/
theorem swapdownLoop_empty {w : Walk δ} (hp : PowTwo size) (hb : w.bucket < size) {d k : Nat}
    (hd : d < size) (hk : d ≤ k) (he : (w.table ((w.bucket + d) % size)).len = 0) :
    ((swapdownLoop size k w).table (swapdownLoop size k w).bucket).len = 0 := by
  induction k generalizing w d with
  | zero =>
    obtain rfl : d = 0 := by omega
    rwa [Nat.add_zero, Nat.mod_eq_of_lt hb] at he
  | succ k ih =>
    unfold swapdownLoop
    split
    · next hl =>
      cases d with
      | zero =>
        rw [Nat.add_zero, Nat.mod_eq_of_lt hb] at he
        exact absurd he hl
      | succ d =>
        exact ih (slotNext_lt hp w.bucket) (d := d) (by omega) (by omega)
          (swapdownStep_ahead hp hb hd he)
    · next hl => exact not_not.mp hl

section Swapdown

variable {table : Nat → Element δ} {nw : Element δ}

theorem walkOk_start (hp : PowTwo size) (hfit : ∀ s < size, Fit size md s (table s))
    (hd : nw.distance = 0) : WalkOk size ⟨table, md, slot nw.hash.toNat size, nw⟩ :=
  ⟨slot_lt hp _, hfit, fit_home hd⟩

/-- Whatever it is given, a call that returns has added what it was given. -/
theorem swapdown_content (hp : PowTwo size) {acc : (Nat → Element δ) × Nat}
    (h : swapdown size table md nw = .ok acc) :
    entries size acc.1 = held nw + entries size table := by
  obtain ⟨hb, hc⟩ := swapdownLoop_content (w := ⟨table, md, slot nw.hash.toNat size, nw⟩) hp
    (slot_lt hp _) size
  unfold swapdown at h
  simp only at h hc
  generalize swapdownLoop size size ⟨table, md, slot nw.hash.toNat size, nw⟩ = w at h hb hc
  split at h
  · cases h
  · next hl =>
    cases h
    rw [entries_update_empty _ _ hb (not_not.mp hl), add_comm, hc, add_comm]

theorem swapdown_spec (hp : PowTwo size) (hfit : ∀ s < size, Fit size md s (table s))
    (hd : nw.distance = 0) {table' : Nat → Element δ} {md' : Nat}
    (h : swapdown size table md nw = .ok (table', md')) :
    entries size table' = held nw + entries size table ∧
    ∀ s < size, Fit size md' s (table' s) := by
  refine ⟨swapdown_content hp h, ?_⟩
  have hok := swapdownLoop_ok hp (walkOk_start hp hfit hd) size
  unfold swapdown at h
  simp only at h
  generalize swapdownLoop size size ⟨table, md, slot nw.hash.toNat size, nw⟩ = w at h hok
  split at h
  · cases h
  · cases h
    intro s hs
    by_cases he : s = w.bucket
    · subst he
      rw [Function.update_self]
      exact hok.nw
    · rw [Function.update_of_ne he]
      exact hok.slots s hs

theorem swapdown_full (hp : PowTwo size) (hfull : ∀ s < size, (table s).len ≠ 0)
    (hnw : nw.len ≠ 0) : swapdown size table md nw = .error .rbhashFail := by
  have hl := swapdownLoop_full (w := ⟨table, md, slot nw.hash.toNat size, nw⟩) hp (slot_lt hp _)
    hfull hnw size
  unfold swapdown
  exact if_pos hl

/-- A table with a free slot is never scanned twice. -/
theorem swapdown_near (hp : PowTwo size) (hmd : md < size) (hd : nw.distance = 0)
    {acc : (Nat → Element δ) × Nat} (h : swapdown size table md nw = .ok acc)
    (hroom : ∃ s < size, (table s).len = 0) : acc.2 < size := by
  obtain ⟨e, he, hempty⟩ := hroom
  have hb := slot_lt hp nw.hash.toNat
  have hoff := Ring.off_lt (slot nw.hash.toNat size) e hp.pos
  have hn := swapdownLoop_near (k := size) (w := ⟨table, md, slot nw.hash.toNat size, nw⟩) hp hb hoff
    (by simpa only [Ring.add_off hb he] using hempty)
  unfold swapdown at h
  simp only [hd] at h hn
  generalize swapdownLoop size size ⟨table, md, slot nw.hash.toNat size, nw⟩ = w at h hn
  split at h
  · cases h
  · cases h
    simp only
    omega

/-- With a free slot the exit is out of reach. -/
theorem swapdown_free (md : Nat) (nw : Element δ) (hp : PowTwo size) (hroom : ∃ s < size, (table s).len = 0) :
    ∃ r, swapdown size table md nw = .ok r := by
  obtain ⟨e, he, hempty⟩ := hroom
  have hb := slot_lt hp nw.hash.toNat
  have hoff := Ring.off_lt (slot nw.hash.toNat size) e hp.pos
  have hl := swapdownLoop_empty (w := ⟨table, md, slot nw.hash.toNat size, nw⟩) hp hb hoff
    (Nat.le_of_lt hoff) (by simpa only [Ring.add_off hb he] using hempty)
  unfold swapdown
  simp only [ne_eq, hl, not_true_eq_false, if_false]
  exact ⟨_, rfl⟩

theorem swapdown_total (nw : Element δ) (hp : PowTwo size)
    (hroom : Multiset.card (entries size table) < size) :
    ∃ r, swapdown size table md nw = .ok r :=
  swapdown_free md nw hp (exists_empty hroom)

end Swapdown

/-- Lookups reach every live element and pass no slot twice. -/
structure Reach (size : Nat) (table : Nat → Element δ) (md : Nat) : Prop where
  fit : ∀ s < size, Fit size md s (table s)
  near : md < size

theorem swapdown_reach {table : Nat → Element δ} {nw : Element δ} (hp : PowTwo size)
    (hr : Reach size table md) (hd : nw.distance = 0) {acc : (Nat → Element δ) × Nat}
    (h : swapdown size table md nw = .ok acc) (hroom : ∃ s < size, (table s).len = 0) :
    Reach size acc.1 acc.2 :=
  ⟨(swapdown_spec hp hr.fit hd h).2, swapdown_near hp hr.near hd h hroom⟩

section Rehash

/-- An element `rbhash_upsize` does not leave out although it is live. -/
def Keyed (e : Element δ) : Prop := e.len ≠ 0 → e.key 0 ≠ 0

instance (e : Element δ) : Decidable (Rbhash.Keyed e) := inferInstanceAs (Decidable (_ → _))

/-- What `rbhash_upsize` takes along of the content. -/
def Entry.Keyed (en : Entry δ) : Prop := en.key.getD 0 0 ≠ 0

instance : DecidablePred (Entry.Keyed (δ := δ)) := fun _ => inferInstanceAs (Decidable (_ ≠ _))

/-- One entry more to take along. -/
theorem filter_keyed_add {en : Entry δ} {m : Multiset (Entry δ)} (hen : en.Keyed)
    (hm : ∀ e ∈ m, e.Keyed) : ({en} + m).filter Entry.Keyed = {en} + m := by
  refine Multiset.filter_eq_self.mpr fun e he => ?_
  rcases Multiset.mem_add.mp he with he | he
  · rw [Multiset.mem_singleton.mp he]
    exact hen
  · exact hm e he

theorem entry_keyed {e : Element δ} (hl : e.len ≠ 0) : e.entry.Keyed ↔ e.key 0 ≠ 0 := by
  have hpos : 0 < e.len := by omega
  simp [Entry.Keyed, Element.entry, Element.bytes, List.getD_eq_getElem?_getD, hpos]

theorem keyed_iff {e : Element δ} : Rbhash.Keyed e ↔ ∀ en ∈ held e, en.Keyed := by
  constructor
  · intro hk en hen
    obtain ⟨hl, rfl⟩ := mem_held.mp hen
    exact (entry_keyed hl).mpr (hk hl)
  · intro h hl
    exact (entry_keyed hl).mp (h _ (mem_held.mpr ⟨hl, rfl⟩))

theorem filter_held (e : Element δ) :
    (held e).filter Entry.Keyed = if e.key 0 = 0 then 0 else held e := by
  by_cases hl : e.len = 0
  · simp [held_empty hl]
  · rw [held_live hl, Multiset.filter_singleton]
    by_cases hk : e.key 0 = 0
    · rw [if_neg (by rw [entry_keyed hl]; exact not_not.mpr hk), if_pos hk]
      rfl
    · rw [if_pos ((entry_keyed hl).mpr hk), if_neg hk]

theorem rehash_content {acc acc' : (Nat → Element δ) × Nat} {el : Element δ} (hp : PowTwo size)
    (h : rehash size acc el = .ok acc') :
    entries size acc'.1 = (held el).filter Entry.Keyed + entries size acc.1 := by
  unfold rehash at h
  rw [filter_held]
  split at h
  · next hz =>
    cases h
    rw [if_pos hz, zero_add]
  · next hz =>
    rw [if_neg hz, swapdown_content hp h, held_distance]

theorem rehash_reach {acc acc' : (Nat → Element δ) × Nat} {el : Element δ} (hp : PowTwo size)
    (hr : Reach size acc.1 acc.2) (hroom : ∃ s < size, (acc.1 s).len = 0)
    (h : rehash size acc el = .ok acc') : Reach size acc'.1 acc'.2 := by
  unfold rehash at h
  split at h
  · cases h
    exact hr
  · exact swapdown_reach hp hr (show ({ el with distance := 0 } : Element δ).distance = 0 from rfl) h
      hroom

/-- Every element of the old table that has a first byte arrives in the new one, stale ones
as nothing. -/
theorem rehash_run (els : List (Element δ)) (acc : (Nat → Element δ) × Nat)
    (hp : PowTwo size) (hr : Reach size acc.1 acc.2)
    (hroom : Multiset.card (entries size acc.1) + els.length < size) :
    ∃ acc', Runs.run (rehash size) els acc = .ok acc' ∧
      entries size acc'.1 = (els.map held).sum.filter Entry.Keyed + entries size acc.1 ∧
      Reach size acc'.1 acc'.2 := by
  induction els generalizing acc with
  | nil => exact ⟨acc, rfl, by simp, hr⟩
  | cons el els ih =>
    simp only [List.length_cons] at hroom
    have hstep : ∃ mid, rehash size acc el = .ok mid := by
      unfold rehash
      split
      · exact ⟨acc, rfl⟩
      · exact swapdown_total _ hp (by omega)
    obtain ⟨mid, hmid⟩ := hstep
    have hc := rehash_content hp hmid
    have hr' := rehash_reach hp hr (exists_empty (by omega)) hmid
    have hcard : Multiset.card ((held el).filter Entry.Keyed) ≤ 1 := by
      refine Nat.le_trans (Multiset.card_le_card (Multiset.filter_le _ _)) ?_
      unfold held
      split <;> simp
    have hroom' : Multiset.card (entries size mid.1) + els.length < size := by
      rw [hc, Multiset.card_add]
      omega
    obtain ⟨acc', hrun, hc', hr''⟩ := ih mid hr' hroom'
    refine ⟨acc', by simp [hmid, hrun], ?_, hr''⟩
    rw [hc', hc, List.map_cons, List.sum_cons, Multiset.filter_add]
    abel

end Rehash

end Rbhash
