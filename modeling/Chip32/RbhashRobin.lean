import Chip32.RbhashAdd

/-!
# The Robin Hood invariant

`rbhash_swapdown` carries an element along the ring and leaves it in place of the first one
that is nearer to its home, which it carries on. While it is carried an element is in no
slot, yet it already is where it could be put: at the distance it has counted, and behind
something that is as far from its home but for one slot. Memory for a table is zeroed here,
for `rbhash_upsize` would carry a stale element into the new table.
-/
namespace Rbhash

variable {δ : Type} {size : Nat}

/-- The distances of a table, none for an empty slot. -/
def distances (table : Nat → Element δ) (s : Nat) : Option Nat :=
  if (table s).len = 0 then none else some (table s).distance

section Distances

variable {table : Nat → Element δ} {b : Nat}

theorem distances_live (h : (table b).len ≠ 0) : distances table b = some (table b).distance :=
  if_neg h

theorem distances_some {d : Nat} :
    distances table b = some d ↔ (table b).len ≠ 0 ∧ (table b).distance = d := by
  by_cases h : (table b).len = 0
  · simp [distances, h]
  · simp [distances, h]

theorem distances_update {e : Element δ} (h : e.len ≠ 0) :
    distances (Function.update table b e) =
      Function.update (distances table) b (some e.distance) := by
  funext s
  by_cases hs : s = b
  · subst hs
    rw [distances_live (by rwa [Function.update_self]), Function.update_self, Function.update_self]
  · rw [Function.update_of_ne hs, distances, distances, Function.update_of_ne hs]

end Distances

/-- An element that is, or can be put, in slot `s`. -/
structure Seated (size : Nat) (table : Nat → Element δ) (s : Nat) (e : Element δ) : Prop where
  distance : e.distance = Ring.off size (slot e.hash.toNat size) s
  behind : Ring.Behind size (distances table) s e.distance

/-- An empty slot that `rbhash_upsize` takes for one. -/
def Blank (e : Element δ) : Prop := e.len = 0 → e.key 0 = 0

/-- All elements of a table are where they belong. -/
structure InOrder (size : Nat) (table : Nat → Element δ) : Prop where
  seats : ∀ s < size, (table s).len ≠ 0 → Seated size table s (table s)
  blank : ∀ s < size, Blank (table s)

/-- Memory in which no key begins, as in any that is filled with zeros. -/
def Zeroed (stale : Nat → Element δ) : Prop := ∀ s, (stale s).key 0 = 0

section Put

variable {table : Nat → Element δ} {b s : Nat} {e e' : Element δ}

theorem Seated.home (table : Nat → Element δ) (h : e.distance = 0) :
    Seated size table (slot e.hash.toNat size) e :=
  ⟨by rw [h, Ring.off_self], by rw [h]; exact Ring.behind_home _ _ _⟩

/-- What is put into a slot in place of nothing, or of an element nearer to its home, leaves
all others where they belong. -/
theorem Seated.update (h : Seated size table s e) (hl : e'.len ≠ 0)
    (hle : (table b).len ≠ 0 → (table b).distance ≤ e'.distance) :
    Seated size (Function.update table b e') s e := by
  refine ⟨h.distance, ?_⟩
  rw [distances_update hl]
  refine h.behind.update fun c hc => ?_
  obtain ⟨hlive, rfl⟩ := distances_some.mp hc
  exact hle hlive

theorem InOrder.update (h : InOrder size table) (he : Seated size table b e) (hl : e.len ≠ 0)
    (hle : (table b).len ≠ 0 → (table b).distance ≤ e.distance) :
    InOrder size (Function.update table b e) := by
  constructor
  · intro s hs hlive
    by_cases hb : s = b
    · subst hb
      rw [Function.update_self]
      exact he.update hl hle
    · rw [Function.update_of_ne hb] at hlive ⊢
      exact (h.seats s hs hlive).update hl hle
  · intro s hs
    by_cases hb : s = b
    · subst hb
      rw [Function.update_self]
      exact fun hempty => absurd hempty hl
    · rw [Function.update_of_ne hb]
      exact h.blank s hs

theorem inOrder_clear (size : Nat) {stale : Nat → Element δ} (h : Zeroed stale) :
    InOrder size (clear size stale) := by
  constructor
  · intro s hs hlive
    simp only [clear, if_pos hs, ne_eq, not_true_eq_false] at hlive
  · intro s hs _
    simp only [clear, if_pos hs]
    exact h s

/-- Carried past an element that is at least as far from its home. -/
theorem seated_next (hp : PowTwo size) (hb : b < size)
    (hdist : e.distance = Ring.off size (slot e.hash.toNat size) b) (hl : (table b).len ≠ 0)
    (hle : e.distance ≤ (table b).distance) (hd : e.distance + 1 < size) {d : Nat}
    (heq : d = (e.distance + 1) % 2 ^ 32) :
    Seated size table (slotNext size b) { e with distance := d } := by
  have hsize := hp.le
  have hd' : d = e.distance + 1 := by rw [heq, Nat.mod_eq_of_lt (by omega)]
  have hoff := Ring.off_next (slot_lt hp e.hash.toNat) hb
  rw [if_neg (by omega)] at hoff
  refine ⟨?_, ?_⟩
  · rw [slotNext_eq hp, hoff, ← hdist]
    exact hd'
  · rw [slotNext_eq hp]
    exact Ring.behind_next hb (distances_live hl) (by simp only; omega)

end Put

/-- The loop of `rbhash_swapdown` between two turns: the table is in order without the
carried element, which could take the slot that is looked at. -/
structure Carries (size : Nat) (w : Walk δ) : Prop where
  bucket : w.bucket < size
  order : InOrder size w.table
  live : w.nw.len ≠ 0
  nw : Seated size w.table w.bucket w.nw

section Walk

variable {w : Walk δ}

theorem swapdownStep_swap (h : (w.table w.bucket).distance < w.nw.distance) :
    (swapdownStep size w).table =
        Function.update w.table w.bucket ((w.table w.bucket).swapped w.nw) ∧
      (swapdownStep size w).nw = { w.nw.swapped (w.table w.bucket) with
        distance := ((w.table w.bucket).distance + 1) % 2 ^ 32 } := by
  refine ⟨by simp only [swapdownStep, if_pos h], ?_⟩
  simp only [swapdownStep, if_pos h]
  rfl

theorem swapdownStep_pass (h : w.nw.distance ≤ (w.table w.bucket).distance) :
    (swapdownStep size w).table = w.table ∧
      (swapdownStep size w).nw = { w.nw with distance := (w.nw.distance + 1) % 2 ^ 32 } := by
  simp only [swapdownStep, if_neg (Nat.not_lt.mpr h), and_self]

theorem swapdownStep_carries (hp : PowTwo size) (h : Carries size w)
    (hl : (w.table w.bucket).len ≠ 0) (hd : w.nw.distance + 1 < size) :
    Carries size (swapdownStep size w) := by
  have hbucket : (swapdownStep size w).bucket = slotNext size w.bucket := rfl
  have htbl := h.order.seats w.bucket h.bucket hl
  by_cases hlt : (w.table w.bucket).distance < w.nw.distance
  · -- what was carried stays, what stood there is one slot behind where it can go
    obtain ⟨htable, hnw⟩ := @swapdownStep_swap δ size w hlt
    have hput : Seated size w.table w.bucket ((w.table w.bucket).swapped w.nw) :=
      ⟨h.nw.distance, h.nw.behind⟩
    have horder := h.order.update hput h.live fun _ => Nat.le_of_lt hlt
    refine ⟨slotNext_lt hp w.bucket, htable ▸ horder, by rw [hnw]; exact hl, ?_⟩
    rw [hbucket, htable, hnw]
    refine @seated_next δ size (Function.update w.table w.bucket ((w.table w.bucket).swapped w.nw))
      w.bucket (w.nw.swapped (w.table w.bucket)) hp h.bucket htbl.distance ?_ ?_ ?_ _ rfl
    · rw [Function.update_self]
      exact h.live
    · rw [Function.update_self]
      exact Nat.le_of_lt hlt
    · exact Nat.lt_of_le_of_lt (Nat.succ_le_succ (Nat.le_of_lt hlt)) hd
  · -- what stands there is at least as far from home as what is carried past it
    obtain ⟨htable, hnw⟩ := @swapdownStep_pass δ size w (Nat.not_lt.mp hlt)
    refine ⟨slotNext_lt hp w.bucket, htable ▸ h.order, by rw [hnw]; exact h.live, ?_⟩
    rw [hbucket, htable, hnw]
    exact seated_next hp h.bucket h.nw.distance hl (Nat.not_lt.mp hlt) hd rfl

/-- An element that is carried is not as many slots from its home as the table has, since an
empty slot is ahead. -/
theorem swapdownLoop_carries (hp : PowTwo size) (h : Carries size w) {d : Nat}
    (hd : w.nw.distance + d < size) (he : (w.table ((w.bucket + d) % size)).len = 0) (k : Nat) :
    Carries size (swapdownLoop size k w) := by
  induction k generalizing w d with
  | zero => exact h
  | succ k ih =>
    unfold swapdownLoop
    split
    · next hl =>
      cases d with
      | zero =>
        rw [Nat.add_zero, Nat.mod_eq_of_lt h.bucket] at he
        exact absurd he hl
      | succ d =>
        have hnear := swapdownStep_distance size w
        exact ih (swapdownStep_carries hp h hl (by omega)) (d := d) (by omega)
          (swapdownStep_ahead hp h.bucket (by omega) he)
    · exact h

end Walk

section Swapdown

variable {table : Nat → Element δ} {md : Nat} {nw : Element δ} {acc : (Nat → Element δ) × Nat}

/-- A call that returns has found an empty slot. -/
theorem swapdown_room (hp : PowTwo size) (hl : nw.len ≠ 0)
    (h : swapdown size table md nw = .ok acc) : ∃ s < size, (table s).len = 0 := by
  by_contra hno
  push Not at hno
  rw [swapdown_full hp hno hl] at h
  cases h

theorem swapdown_inOrder (hp : PowTwo size) (horder : InOrder size table) (hl : nw.len ≠ 0)
    (hd : nw.distance = 0) (h : swapdown size table md nw = .ok acc) : InOrder size acc.1 := by
  obtain ⟨e, he, hempty⟩ := swapdown_room hp hl h
  have hb := slot_lt hp nw.hash.toNat
  have hoff := Ring.off_lt (slot nw.hash.toNat size) e hp.pos
  have hstart : Carries size ⟨table, md, slot nw.hash.toNat size, nw⟩ :=
    ⟨hb, horder, hl, .home table hd⟩
  have hend := swapdownLoop_carries hp hstart (d := Ring.off size (slot nw.hash.toNat size) e)
    (by simp only [hd]; omega) (by simpa only [Ring.add_off hb he] using hempty) size
  unfold swapdown at h
  simp only at h
  generalize swapdownLoop size size ⟨table, md, slot nw.hash.toNat size, nw⟩ = w at h hend
  split at h
  · cases h
  · next hfree =>
    cases h
    exact hend.order.update hend.nw hend.live fun hlive => absurd hlive hfree

/-- The old table's empty slots are left out, and all that is carried is live. -/
theorem rehash_inOrder {el : Element δ} {acc' : (Nat → Element δ) × Nat} (hp : PowTwo size)
    (hel : Blank el) (horder : InOrder size acc.1) (h : rehash size acc el = .ok acc') :
    InOrder size acc'.1 := by
  unfold rehash at h
  split at h
  · cases h
    exact horder
  · next hkey =>
    have hl : el.len ≠ 0 := fun hempty => hkey (hel hempty)
    exact swapdown_inOrder hp horder (show ({ el with distance := 0 } : Element δ).len ≠ 0 from hl)
      rfl h

end Swapdown

/-- The new table is put in order from the empty one, whatever the distances in the old one. -/
theorem upsize_inOrder {t u : Hash δ} {r : Int} {newtable : Option (Nat → Element δ)}
    (horder : InOrder t.size t.table) (hzero : ∀ stale, newtable = some stale → Zeroed stale)
    (hfit : t.size ≤ t.count + spare t → t.size + spare t ≤ 2 ^ 31)
    (h : upsize t newtable = .ok (r, u)) : InOrder u.size u.table := by
  unfold upsize at h
  split at h
  · cases h
    exact horder
  · next hgrow =>
    cases hnew : newtable with
    | none =>
      rw [hnew] at h
      cases h
      exact horder
    | some stale =>
      rw [hnew] at h
      obtain ⟨acc, hrun, hu⟩ := Runs.bind_eq_ok.mp h
      cases hu
      have hpos : 0 < spare t := by simp [spare]
      obtain ⟨hp, -⟩ := roundUpPowTwo32_spec (n := t.size + spare t) (by omega)
        (hfit (Nat.not_lt.mp hgrow))
      refine Runs.run_invariant (rehash (roundUpPowTwo32 (t.size + spare t)))
        (P := Blank) (I := fun acc => InOrder _ acc.1) ?_ ?_
        (inOrder_clear _ (hzero stale hnew)) hrun
      · intro acc el acc' hel hacc hstep
        exact rehash_inOrder hp hel hacc hstep
      · intro el hel
        obtain ⟨s, hs, rfl⟩ := List.mem_map.mp hel
        exact horder.blank s (List.mem_range.mp hs)

/-- The representation invariant: each distance is the one from the slot of the hash, lookups
reach it, and what is displaced has behind it what is displaced as far but for one slot. -/
structure RobinHood (t : Hash δ) : Prop where
  distance : ∀ s < t.size, (t.table s).len ≠ 0 →
    (t.table s).distance = (s + t.size - (t.table s).hash.toNat % t.size) % t.size ∧
      (t.table s).distance ≤ t.maxdistance
  maxdistance : t.maxdistance < t.size
  behind : ∀ s < t.size, (t.table s).len ≠ 0 → 0 < (t.table s).distance →
    (t.table ((s + t.size - 1) % t.size)).len ≠ 0 ∧
      (t.table s).distance - 1 ≤ (t.table ((s + t.size - 1) % t.size)).distance

instance (t : Hash δ) : Decidable (RobinHood t) :=
  decidable_of_iff (_ ∧ _ ∧ _) ⟨fun h => ⟨h.1, h.2.1, h.2.2⟩, fun h => ⟨h.1, h.2, h.3⟩⟩

/-- One step from home, with nothing behind it. -/
example : ¬ RobinHood (δ := Nat) { new 2 1 1 (fun _ => 0) false (fun _ => zeros) with
    table := fun s => if s = 1 then { zeros with len := 1, distance := 1 } else zeros
    maxdistance := 1 } := by decide

theorem InOrder.robinHood {t : Hash δ} (h : InOrder t.size t.table) (hp : PowTwo t.size)
    (hr : Reach t.size t.table t.maxdistance) : RobinHood t := by
  refine ⟨fun s hs hl => ⟨?_, (hr.fit s hs hl).1⟩, hr.near, fun s hs hl hd => ?_⟩
  · rw [(h.seats s hs hl).distance, slot_eq_mod hp]
    rfl
  · obtain ⟨d, hprev, hle⟩ := (h.seats s hs hl).behind hd
    obtain ⟨hlive, rfl⟩ := distances_some.mp hprev
    exact ⟨hlive, Nat.sub_le_of_le_add hle⟩

/-- The length of the key is not recorded as zero, and a growth gets zeroed memory. -/
structure AddCall.Granted (c : AddCall δ) : Prop where
  len : c.key.length % 2 ^ 32 ≠ 0
  newtable : ∃ stale, c.alloc.newtable = some stale ∧ Zeroed stale

/-- A table in order, with room for one more. -/
structure Ready (t : Hash δ) : Prop where
  pow : PowTwo t.size
  reach : Reach t.size t.table t.maxdistance
  order : InOrder t.size t.table
  min : t.min ≠ 0
  card : Multiset.card (entries t.size t.table) ≤ t.count
  room : t.count < t.size

theorem ready_new {size min keysize : Nat} {hashing : List Byte → BitVec 32} {del : Bool}
    {stale : Nat → Element δ} (hsize : 1 ≤ size ∧ size ≤ 2 ^ 31) (hmin : 1 ≤ min)
    (hzero : Zeroed stale) : Ready (new size min keysize hashing del stale) := by
  have hp : PowTwo (roundUpPowTwo32 size) := (roundUpPowTwo32_spec hsize.1 hsize.2).1
  have hempty : entries (roundUpPowTwo32 size) (clear (roundUpPowTwo32 size) stale) = 0 :=
    entries_clear _ _
  exact ⟨hp, reach_clear _ stale hp.pos, inOrder_clear _ hzero, Nat.ne_of_gt hmin,
    by rw [new, hempty, Multiset.card_zero], hp.pos⟩

section Step

variable {t : Hash δ} {c : AddCall δ}

/-- With room in the table and zeroed memory for a larger one, every call leaves the table in
order and room in it. -/
theorem Ready.step (h : Ready t) (hc : c.Granted) (hfit : c.Fits t) :
    ∃ u, c.step t = .ok u ∧ Ready u := by
  by_cases hplaces : c.Places t
  case neg => exact ⟨t, by rw [AddCall.step, AddCall.run_unplaced hplaces]; rfl, h⟩
  case pos =>
  obtain ⟨el, hrun⟩ := AddCall.run_placed hplaces
  have hcard := h.card
  have hroom := h.room
  have hfree := @exists_empty δ t.size t.table (by omega)
  obtain ⟨acc, hacc⟩ := swapdown_free t.maxdistance (el.fill (c.hash t) c.key c.data) h.pow hfree
  have hreach := swapdown_reach h.pow h.reach rfl hacc hfree
  have horder := swapdown_inOrder h.pow h.order (show (el.fill (c.hash t) c.key c.data).len ≠ 0
    from hc.len) rfl hacc
  have hone : Multiset.card (entries t.size acc.1) ≤ t.count + 1 := by
    rw [swapdown_content h.pow hacc, held_live hc.len, Multiset.card_add, Multiset.card_singleton]
    omega
  rw [hacc, Runs.ok_bind] at hrun
  by_cases hg : Grows t
  · obtain ⟨stale, hstale, hzero⟩ := hc.newtable
    obtain ⟨u, hup, hkind, hcount, hp, hlt, hr, he⟩ := upsize_placed acc hg (hfit hplaces) stale
    have hu := @upsize_inOrder δ (placed t acc) u 0 (some stale) horder
      (fun _ hs => Option.some.inj hs ▸ hzero) (hfit hplaces hg.1) hup
    refine ⟨u, ?_, hp, hr, hu, ?_, ?_, by omega⟩
    · rw [AddCall.step, hrun, if_pos hg, hstale, hup]
      rfl
    · rw [hkind.2.2.1]
      exact h.min
    · rw [he, hcount]
      exact Nat.le_trans (Multiset.card_le_card (Multiset.filter_le _ _)) hone
  · have hlt := room_of_not_grows h.min hg
    refine ⟨placed t acc, ?_, h.pow, hreach, horder, h.min, hone, ?_⟩
    · rw [AddCall.step, hrun, if_neg hg]
      rfl
    · simp only [placed]
      omega

end Step

theorem ready_run {t : Hash δ} (h : Ready t) {calls : List (AddCall δ)}
    (hcalls : ∀ c ∈ calls, c.Granted)
    (hfit : Runs.Along AddCall.step (fun t c => c.Fits t) calls t) :
    ∃ u, Runs.run AddCall.step calls t = .ok u ∧ Ready u := by
  have hboth : Runs.Along AddCall.step (fun t c => c.Granted ∧ c.Fits t) calls t :=
    (Runs.along_congr AddCall.step fun c hc _ => (and_iff_right (hcalls c hc)).symm).mp hfit
  exact Runs.run_total AddCall.step (fun _ _ hready hc => hready.step hc.1 hc.2) h hboth

/-- Whatever is added, under whatever hash function, and however often the table grows, the
representation invariant holds. -/
theorem robinHood_run {size min keysize : Nat} {hashing : List Byte → BitVec 32} {del : Bool}
    {stale : Nat → Element δ} (hsize : 1 ≤ size ∧ size ≤ 2 ^ 31) (hmin : 1 ≤ min)
    (hzero : Zeroed stale) (calls : List (AddCall δ)) (hcalls : ∀ c ∈ calls, c.Granted)
    (hfit : Runs.Along AddCall.step (fun t c => c.Fits t) calls
      (new size min keysize hashing del stale)) :
    ∃ t, Runs.run AddCall.step calls (new size min keysize hashing del stale) = .ok t ∧
      RobinHood t := by
  obtain ⟨t, hrun, hready⟩ := ready_run (ready_new hsize hmin hzero) hcalls hfit
  exact ⟨t, hrun, hready.order.robinHood hready.pow hready.reach⟩

/-- A call whose growth gets zeros. -/
def zeroedAdd (key : List Byte) : AddCall Nat :=
  ⟨.plain, key, none, ⟨some zeros, some fun _ => zeros⟩⟩

/-- Two keys of one slot. -/
theorem robinHood_run_displaced :
    ∃ t, Runs.run AddCall.step [zeroedAdd [1], zeroedAdd [2]]
        (new 2 10 4 (fun _ => 0) false fun _ => zeros) = .ok t ∧ RobinHood t := by
  refine robinHood_run (by decide) (by decide) (fun _ => rfl) _ ?_ ?_
  · intro c hc
    rcases List.mem_pair.mp hc with rfl | rfl
    · exact ⟨by decide, _, rfl, fun _ => rfl⟩
    · exact ⟨by decide, _, rfl, fun _ => rfl⟩
  · refine ⟨fun _ => by decide, fun t ht => ⟨fun _ => ?_, fun _ _ => trivial⟩⟩
    cases ht
    decide +kernel

end Rbhash
