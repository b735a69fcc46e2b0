import Chip32.RbhashMap
import Chip32.RbhashRobin

/-!
# What a table says of itself

`rbhash_slot_key` and `rbhash_slot_data` show what is in a slot; from slot 0 to the last
they list the map. `rbhash_bucket_used`, `rbhash_distance_max` and `rbhash_collision` are
the number of entries, the largest distance of an entry and the number of displaced ones.
-/
namespace Rbhash

variable {δ : Type}

/-- `rbhash_slot_key`. -/
def slotKey (t : Hash δ) (slot : Nat) : Option (Nat → Byte) :=
  if (t.table slot).len ≠ 0 then some (t.table slot).key else none

/-- `rbhash_slot_data`. -/
def slotData (t : Hash δ) (slot : Nat) : Option δ :=
  if (t.table slot).len ≠ 0 then (t.table slot).data else none

/-- `rbhash_bucket_used`. -/
def bucketUsed (t : Hash δ) : Nat := t.count

/-- `rbhash_collision`. -/
def collision (t : Hash δ) : Nat :=
  (List.range t.size).countP fun s => (t.table s).len ≠ 0 && (t.table s).distance ≠ 0

/-- `rbhash_distance_max`. -/
def distanceMax (t : Hash δ) : Nat := t.maxdistance

/-- What a slot shows to a caller who knows how long its key is. -/
def shown (t : Hash δ) (s : Nat) : Option (List Byte × Option δ) :=
  (slotKey t s).map fun k => ((List.range (t.table s).len).map k, slotData t s)

def listing (t : Hash δ) : List (List Byte × Option δ) := (List.range t.size).filterMap (shown t)

section Listing

variable {t : Hash δ} {m : List Byte → Option δ}

/-- It is the content, slot by slot. -/
theorem listed (t : Hash δ) (n : Nat) :
    (((List.range n).filterMap (shown t) : List _) : Multiset (List Byte × Option δ)) =
      (entries n t.table).map fun en => (en.key, en.data) := by
  induction n with
  | zero => rfl
  | succ n ih =>
    have hentries : entries (n + 1) t.table = entries n t.table + held (t.table n) :=
      Finset.sum_range_succ _ _
    rw [List.range_succ, List.filterMap_append, ← Multiset.coe_add, ih, hentries,
      Multiset.map_add]
    congr 1
    by_cases hl : (t.table n).len = 0
    · simp [shown, slotKey, held, hl]
    · simp [shown, slotKey, slotData, held, hl, Element.entry, Element.bytes]

theorem Inv.listing_keys (h : Inv t) : ((listing t).map Prod.fst).Nodup := by
  rw [← Multiset.coe_nodup, ← Multiset.map_coe, listing, listed, Multiset.map_map]
  exact h.nodup

theorem Inv.listing_length (h : Inv t) : (listing t).length = bucketUsed t := by
  rw [← Multiset.coe_card, listing, listed, Multiset.card_map]
  exact h.count

theorem Holds.mem_listing (h : Holds t m) {key : List Byte} {d : δ} :
    (key, some d) ∈ listing t ↔ m key = some d := by
  rw [← Multiset.mem_coe, listing, listed, Multiset.mem_map, ← h.content]
  constructor
  · rintro ⟨en, hen, he⟩
    obtain ⟨rfl, hd⟩ := Prod.mk.inj he
    obtain ⟨_, hh, _⟩ := h.sound en hen
    rwa [← hd, ← hh]
  · exact fun hen => ⟨_, hen, rfl⟩

theorem Inv.listing_data (h : Inv t) {x : List Byte × Option δ} (hx : x ∈ listing t) :
    x.2.isSome := by
  rw [← Multiset.mem_coe, listing, listed, Multiset.mem_map] at hx
  obtain ⟨en, hen, rfl⟩ := hx
  exact (h.sound en hen).2.2

/-- After any calls of `rbhash_add_unique`, going through the slots shows every key that was
added once, with the data of the first call for it, and nothing else. -/
theorem listing_map {size min keysize : Nat} {hashing : List Byte → BitVec 32} {del : Bool}
    {stale : Nat → Element δ} (hsize : 1 ≤ size ∧ size ≤ 2 ^ 31) (hmin : 1 ≤ min)
    (hkey : keysize ≤ 2 ^ 31) (calls : List (Call δ)) (hv : ∀ c ∈ calls, ValidKey keysize c.key)
    (hfit : Runs.Along Call.step Fits calls (new size min keysize hashing del stale)) :
    ∃ t, Runs.run Call.step calls (new size min keysize hashing del stale) = .ok t ∧
      (∀ key d, (key, some d) ∈ listing t ↔ firstData calls key = some d) ∧
      (∀ x ∈ listing t, x.2.isSome) ∧ ((listing t).map Prod.fst).Nodup ∧
      (listing t).length = bucketUsed t := by
  obtain ⟨t, hrun, hh, _⟩ := run_holds hsize.1 hsize.2 hmin hkey hv hfit
  exact ⟨t, hrun, fun _ _ => hh.mem_listing, fun _ hx => hh.listing_data hx, hh.listing_keys,
    hh.listing_length⟩

end Listing

theorem listing_map_stale :
    ∃ t, Runs.run Call.step staleCalls (new 1 10 4 (fun _ => 0) false fun _ => staleElement) =
        .ok t ∧
      (∀ key d, (key, some d) ∈ listing t ↔ firstData staleCalls key = some d) ∧
      (∀ x ∈ listing t, x.2.isSome) ∧ ((listing t).map Prod.fst).Nodup ∧
      (listing t).length = bucketUsed t :=
  listing_map (by decide) (by decide) (by decide) _ (by decide) staleCalls_fit

/-- An entry, or else the element that is carried, is `md` slots from its home. -/
def Attained (size : Nat) (table : Nat → Element δ) (md : Nat) : Prop :=
  md = 0 ∨ ∃ s < size, (table s).len ≠ 0 ∧ md ≤ (table s).distance

section Walk

variable {size md : Nat} {table : Nat → Element δ} {w : Walk δ} {nw : Element δ}
  {acc acc' : (Nat → Element δ) × Nat}

/-- What was the largest distance before a turn is that of an entry after it. -/
theorem swapdownStep_keeps (hb : w.bucket < size) (hl : (w.table w.bucket).len ≠ 0)
    (hn : w.nw.len ≠ 0)
    (h : w.maxdistance ≤ w.nw.distance ∨ Attained size w.table w.maxdistance) :
    Attained size (swapdownStep size w).table w.maxdistance := by
  by_cases hlt : (w.table w.bucket).distance < w.nw.distance
  · -- the carried element stays in the slot, further from its home than what stood there
    obtain ⟨htable, _⟩ := @swapdownStep_swap δ size w hlt
    rw [htable]
    have hput : w.maxdistance ≤ w.nw.distance → Attained size (Function.update w.table w.bucket
        ((w.table w.bucket).swapped w.nw)) w.maxdistance := fun hle =>
      .inr ⟨w.bucket, hb, by rw [Function.update_self]; exact hn, by
        rw [Function.update_self]; exact hle⟩
    rcases h with hle | hzero | ⟨s, hs, hlive, hle⟩
    · exact hput hle
    · exact .inl hzero
    · by_cases hsb : s = w.bucket
      · subst hsb
        exact hput (Nat.le_trans hle (Nat.le_of_lt hlt))
      · exact .inr ⟨s, hs, by rwa [Function.update_of_ne hsb], by rwa [Function.update_of_ne hsb]⟩
  · obtain ⟨htable, _⟩ := @swapdownStep_pass δ size w (Nat.not_lt.mp hlt)
    rw [htable]
    rcases h with hle | h
    · exact .inr ⟨w.bucket, hb, hl, Nat.le_trans hle (Nat.not_lt.mp hlt)⟩
    · exact h

theorem swapdownStep_attained (hb : w.bucket < size) (hl : (w.table w.bucket).len ≠ 0)
    (hn : w.nw.len ≠ 0)
    (h : w.maxdistance ≤ w.nw.distance ∨ Attained size w.table w.maxdistance) :
    (swapdownStep size w).nw.len ≠ 0 ∧
      ((swapdownStep size w).maxdistance ≤ (swapdownStep size w).nw.distance ∨
        Attained size (swapdownStep size w).table (swapdownStep size w).maxdistance) := by
  constructor
  · by_cases hlt : (w.table w.bucket).distance < w.nw.distance
    · rw [(@swapdownStep_swap δ size w hlt).2]
      exact hl
    · rw [(@swapdownStep_pass δ size w (Nat.not_lt.mp hlt)).2]
      exact hn
  · rw [swapdownStep_maxdistance]
    by_cases hle : w.maxdistance ≤ (swapdownStep size w).nw.distance
    · exact .inl (Nat.max_le.mpr ⟨hle, Nat.le_refl _⟩)
    · rw [Nat.max_eq_left (Nat.le_of_not_le hle)]
      exact .inr (swapdownStep_keeps hb hl hn h)

theorem swapdownLoop_attained (hp : PowTwo size) (hb : w.bucket < size) (hn : w.nw.len ≠ 0)
    (h : w.maxdistance ≤ w.nw.distance ∨ Attained size w.table w.maxdistance) (k : Nat) :
    (swapdownLoop size k w).bucket < size ∧ (swapdownLoop size k w).nw.len ≠ 0 ∧
      ((swapdownLoop size k w).maxdistance ≤ (swapdownLoop size k w).nw.distance ∨
        Attained size (swapdownLoop size k w).table (swapdownLoop size k w).maxdistance) := by
  induction k generalizing w with
  | zero => exact ⟨hb, hn, h⟩
  | succ k ih =>
    unfold swapdownLoop
    split
    · next hl =>
      obtain ⟨hn', h'⟩ := swapdownStep_attained hb hl hn h
      exact ih (slotNext_lt hp w.bucket) hn' h'
    · exact ⟨hb, hn, h⟩

theorem swapdown_attained (hp : PowTwo size) (hn : nw.len ≠ 0) (hmd : Attained size table md)
    (h : swapdown size table md nw = .ok acc) : Attained size acc.1 acc.2 := by
  have hstart := @swapdownLoop_attained δ size ⟨table, md, slot nw.hash.toNat size, nw⟩ hp
    (slot_lt hp _) hn (.inr hmd) size
  unfold swapdown at h
  simp only at h
  generalize swapdownLoop size size ⟨table, md, slot nw.hash.toNat size, nw⟩ = w at h hstart
  obtain ⟨hb, hlive, hmax⟩ := hstart
  split at h
  · cases h
  · next hfree =>
    cases h
    change Attained size (Function.update w.table w.bucket w.nw) w.maxdistance
    rcases hmax with hle | hzero | ⟨s, hs, hl, hle⟩
    · exact .inr ⟨w.bucket, hb, by rwa [Function.update_self], by rwa [Function.update_self]⟩
    · exact .inl hzero
    · have hsb : s ≠ w.bucket := fun he => hfree (he ▸ hl)
      exact .inr ⟨s, hs, by rwa [Function.update_of_ne hsb], by rwa [Function.update_of_ne hsb]⟩

theorem rehash_attained {el : Element δ} (hp : PowTwo size) (hel : Blank el)
    (hmd : Attained size acc.1 acc.2) (h : rehash size acc el = .ok acc') :
    Attained size acc'.1 acc'.2 := by
  unfold rehash at h
  split at h
  · cases h
    exact hmd
  · next hkey =>
    have hl : el.len ≠ 0 := fun hempty => hkey (hel hempty)
    exact swapdown_attained hp (show ({ el with distance := 0 } : Element δ).len ≠ 0 from hl) hmd h

end Walk

section Growth

variable {t u : Hash δ} {c : AddCall δ}

theorem upsize_attained {r : Int} {newtable : Option (Nat → Element δ)}
    (hblank : ∀ s < t.size, Blank (t.table s))
    (hmd : Attained t.size t.table t.maxdistance)
    (hfit : t.size ≤ t.count + spare t → t.size + spare t ≤ 2 ^ 31)
    (h : upsize t newtable = .ok (r, u)) : Attained u.size u.table u.maxdistance := by
  unfold upsize at h
  split at h
  · cases h
    exact hmd
  · next hgrow =>
    cases hnew : newtable with
    | none =>
      rw [hnew] at h
      cases h
      exact hmd
    | some stale =>
      rw [hnew] at h
      obtain ⟨acc, hrun, hu⟩ := Runs.bind_eq_ok.mp h
      cases hu
      have hpos : 0 < spare t := by simp [spare]
      obtain ⟨hp, -⟩ := roundUpPowTwo32_spec (n := t.size + spare t) (by omega)
        (hfit (Nat.not_lt.mp hgrow))
      refine Runs.run_invariant (rehash (roundUpPowTwo32 (t.size + spare t)))
        (P := Blank) (I := fun acc => Attained _ acc.1 acc.2) ?_ ?_ (.inl rfl) hrun
      · intro acc el acc' hel hacc hstep
        exact rehash_attained hp hel hacc hstep
      · intro el hel
        obtain ⟨s, hs, rfl⟩ := List.mem_map.mp hel
        exact hblank s (List.mem_range.mp hs)

/-- A table in order whose `maxdistance` is the distance of an entry. -/
structure Exact (t : Hash δ) : Prop extends Ready t where
  attained : Attained t.size t.table t.maxdistance

theorem exact_new {size min keysize : Nat} {hashing : List Byte → BitVec 32} {del : Bool}
    {stale : Nat → Element δ} (hsize : 1 ≤ size ∧ size ≤ 2 ^ 31) (hmin : 1 ≤ min)
    (hzero : Zeroed stale) : Exact (new size min keysize hashing del stale) :=
  ⟨ready_new hsize hmin hzero, .inl rfl⟩

theorem Exact.step (h : Exact t) (hc : c.Granted) (hfit : c.Fits t) :
    ∃ u, c.step t = .ok u ∧ Exact u := by
  obtain ⟨u, hstep, hready⟩ := h.toReady.step hc hfit
  refine ⟨u, hstep, hready, ?_⟩
  by_cases hplaces : c.Places t
  case neg =>
    rw [AddCall.step, AddCall.run_unplaced hplaces] at hstep
    cases hstep
    exact h.attained
  case pos =>
  obtain ⟨el, hrun⟩ := AddCall.run_placed hplaces
  obtain ⟨⟨r, u'⟩, hret, hu⟩ := Runs.bind_eq_ok.mp hstep
  cases hu
  rw [hrun] at hret
  obtain ⟨acc, hacc, hret⟩ := Runs.bind_eq_ok.mp hret
  have hlive : (el.fill (c.hash t) c.key c.data).len ≠ 0 := hc.len
  have hmd := swapdown_attained h.pow hlive h.attained hacc
  split at hret
  · next hg =>
    have horder := swapdown_inOrder h.pow h.order hlive rfl hacc
    exact upsize_attained (t := placed t acc) horder.blank hmd (hfit hplaces hg.1) hret
  · cases hret
    exact hmd

end Growth

section Runs

variable {size min keysize : Nat} {hashing : List Byte → BitVec 32} {del : Bool}
  {stale : Nat → Element δ}

theorem exact_run (hsize : 1 ≤ size ∧ size ≤ 2 ^ 31) (hmin : 1 ≤ min) (hzero : Zeroed stale)
    {calls : List (AddCall δ)} (hcalls : ∀ c ∈ calls, c.Granted)
    (hfit : Runs.Along AddCall.step (fun t c => c.Fits t) calls
      (new size min keysize hashing del stale)) :
    ∃ t, Runs.run AddCall.step calls (new size min keysize hashing del stale) = .ok t ∧ Exact t :=
  Runs.run_total AddCall.step (fun _ _ (hexact : Exact _) hc => hexact.step hc.1 hc.2)
    (exact_new hsize hmin hzero)
    ((Runs.along_congr AddCall.step fun c hc _ => (and_iff_right (hcalls c hc)).symm).mp hfit)

end Runs

/-- Two keys of one slot. -/
theorem twoAdds_granted : ∀ c ∈ [zeroedAdd [1], zeroedAdd [2]], c.Granted := by
  intro c hc
  obtain rfl | rfl := List.mem_pair.mp hc
  · exact ⟨by decide, _, rfl, fun _ => rfl⟩
  · exact ⟨by decide, _, rfl, fun _ => rfl⟩

theorem twoAdds_fit : Runs.Along AddCall.step (fun t c => c.Fits t) [zeroedAdd [1], zeroedAdd [2]]
    (new 2 10 4 (fun _ => 0) false fun _ => zeros) := by
  refine ⟨fun _ => by decide, fun t ht => ⟨fun _ => ?_, fun _ _ => trivial⟩⟩
  cases ht
  decide +kernel

section Homes

variable {t : Hash δ} {size : Nat} {table : Nat → Element δ}

/-- The slot an entry is sought at first. -/
def home (size : Nat) (en : Entry δ) : Nat := slot en.hash.toNat size

theorem home_eq (s : Nat) : home size (table s).entry = slot (table s).hash.toNat size := rfl

theorem homes_eq (n : Nat) : (entries n table).map (home size) =
    (((List.range n).filterMap fun s =>
      if (table s).len ≠ 0 then some (home size (table s).entry) else none : List Nat) :
        Multiset Nat) := by
  induction n with
  | zero => rfl
  | succ n ih =>
    have hentries : entries (n + 1) table = entries n table + held (table n) :=
      Finset.sum_range_succ _ _
    rw [List.range_succ, List.filterMap_append, ← Multiset.coe_add, ← ih, hentries,
      Multiset.map_add]
    congr 1
    by_cases hl : (table n).len = 0
    · simp [held, hl]
    · simp [held, hl]

theorem homes_nodup (h : ∀ s < size, ∀ s' < size, (table s).len ≠ 0 → (table s').len ≠ 0 →
    home size (table s).entry = home size (table s').entry → s = s') :
    ((entries size table).map (home size)).Nodup := by
  rw [homes_eq, Multiset.coe_nodup, List.Nodup, List.pairwise_filterMap]
  refine List.nodup_range.pairwise_of_forall_ne fun s hs s' hs' hne b hb b' hb' he => hne ?_
  rw [Option.ite_none_right_eq_some] at hb hb'
  obtain ⟨hl, hb⟩ := hb
  obtain ⟨hl', hb'⟩ := hb'
  exact h s (List.mem_range.mp hs) s' (List.mem_range.mp hs') hl hl'
    ((Option.some.inj hb).trans (he.trans (Option.some.inj hb').symm))

theorem homes_unique (h : ((entries size table).map (home size)).Nodup) {s s' : Nat}
    (hs : s < size) (hs' : s' < size) (hl : (table s).len ≠ 0) (hl' : (table s').len ≠ 0)
    (he : home size (table s).entry = home size (table s').entry) : s = s' := by
  rw [homes_eq, Multiset.coe_nodup, List.Nodup, List.pairwise_filterMap] at h
  have hpair := List.pairwise_iff_getElem.mp h
  by_contra hne
  rcases Nat.lt_or_gt_of_ne hne with hlt | hlt
  · refine hpair s s' (by simpa using hs) (by simpa using hs') hlt _ ?_ _ ?_ he
    · simp [hl]
    · simp [hl']
  · refine hpair s' s (by simpa using hs') (by simpa using hs) hlt _ ?_ _ ?_ he.symm
    · simp [hl']
    · simp [hl]

theorem collision_eq_zero : collision t = 0 ↔
    ∀ s < t.size, (t.table s).len ≠ 0 → (t.table s).distance = 0 := by
  simp [collision, List.countP_eq_zero]

/-- Of what is displaced, something stands right behind an element that is at home. -/
theorem InOrder.displaced (h : InOrder size table) {e : Nat} (he : e < size)
    (hempty : (table e).len = 0) {s : Nat} (hs : s < size) (hl : (table s).len ≠ 0)
    (hd : (table s).distance ≠ 0) :
    ∃ p < size, (table p).len ≠ 0 ∧ (table p).distance = 0 ∧
      (table ((p + 1) % size)).len ≠ 0 ∧ (table ((p + 1) % size)).distance = 1 := by
  -- by induction on the way from the empty slot
  obtain ⟨k, hk⟩ : ∃ k, Ring.off size e s = k := ⟨_, rfl⟩
  induction k generalizing s with
  | zero =>
    have hes := Ring.add_off he hs
    rw [hk, Nat.add_zero, Nat.mod_eq_of_lt he] at hes
    exact absurd hempty (hes ▸ hl)
  | succ k ih =>
    have hp := Ring.prev_lt hs
    have hnext := Ring.next_prev hs
    obtain ⟨d, hprev, hle⟩ := (h.seats s hs hl).behind (Nat.pos_of_ne_zero hd)
    obtain ⟨hlive, rfl⟩ := distances_some.mp hprev
    by_cases hhome : (table (Ring.prev size s)).distance = 0
    · refine ⟨_, hp, hlive, hhome, by rwa [hnext], ?_⟩
      rw [hnext]
      omega
    · refine ih hp hlive hhome ?_
      have hoff := Ring.off_next he hp
      rw [hnext, hk] at hoff
      split at hoff <;> omega

/-- The table has no collision exactly when no two entries have one home. -/
theorem Ready.collision_iff (h : Ready t) :
    collision t = 0 ↔ ((entries t.size t.table).map (home t.size)).Nodup := by
  have hseat : ∀ s < t.size, (t.table s).len ≠ 0 →
      (home t.size (t.table s).entry + (t.table s).distance) % t.size = s := by
    intro s hs hl
    rw [(h.order.seats s hs hl).distance, home_eq]
    exact Ring.add_off (slot_lt h.pow _) hs
  have hlt : ∀ en : Entry δ, home t.size en < t.size := fun _ => slot_lt h.pow _
  rw [collision_eq_zero]
  constructor
  · intro hzero
    refine homes_nodup fun s hs s' hs' hl hl' he => ?_
    rw [← hseat s hs hl, ← hseat s' hs' hl', he, hzero s hs hl, hzero s' hs' hl']
  · intro hnodup s hs hl
    by_contra hd
    have hroom := h.room
    have hcard := h.card
    obtain ⟨e, he, hempty⟩ := @exists_empty δ t.size t.table (by omega)
    obtain ⟨p, hp, hlp, hdp, hln, hdn⟩ := h.order.displaced he hempty hs hl hd
    have hn : (p + 1) % t.size < t.size := Ring.next_lt p (by omega)
    have hhome := hseat p hp hlp
    have hhome' := hseat _ hn hln
    rw [hdp, Nat.add_zero, Nat.mod_eq_of_lt (hlt _)] at hhome
    rw [hdn] at hhome'
    have hprev := congrArg (Ring.prev t.size) hhome'
    rw [Ring.prev_next (hlt _), Ring.prev_next hp] at hprev
    have hsame := homes_unique hnodup hp hn hlp hln (hhome.trans hprev.symm)
    rw [← hsame] at hdn
    omega

end Homes

/-- After any additions `rbhash_collision` is 0 exactly when no two entries are sought at one
slot first, and exactly when `rbhash_distance_max` is. -/
theorem collision_run {size min keysize : Nat} {hashing : List Byte → BitVec 32} {del : Bool}
    {stale : Nat → Element δ} (hsize : 1 ≤ size ∧ size ≤ 2 ^ 31) (hmin : 1 ≤ min)
    (hzero : Zeroed stale) (calls : List (AddCall δ)) (hcalls : ∀ c ∈ calls, c.Granted)
    (hfit : Runs.Along AddCall.step (fun t c => c.Fits t) calls
      (new size min keysize hashing del stale)) :
    ∃ t, Runs.run AddCall.step calls (new size min keysize hashing del stale) = .ok t ∧
      (collision t = 0 ↔ ((entries t.size t.table).map (home t.size)).Nodup) ∧
      (collision t = 0 ↔ distanceMax t = 0) := by
  obtain ⟨t, hrun, hexact⟩ := exact_run hsize hmin hzero hcalls hfit
  refine ⟨t, hrun, hexact.toReady.collision_iff, ?_⟩
  rw [collision_eq_zero]
  constructor
  · intro hnone
    rcases hexact.attained with hmd | ⟨s, hs, hl, hge⟩
    · exact hmd
    · exact Nat.le_zero.mp (hnone s hs hl ▸ hge)
  · intro hmd s hs hl
    exact Nat.le_zero.mp (hmd ▸ (hexact.reach.fit s hs hl).1)

theorem collision_run_displaced :
    ∃ t, Runs.run AddCall.step [zeroedAdd [1], zeroedAdd [2]]
        (new 2 10 4 (fun _ => 0) false fun _ => zeros) = .ok t ∧
      (collision t = 0 ↔ ((entries t.size t.table).map (home t.size)).Nodup) ∧
      (collision t = 0 ↔ distanceMax t = 0) :=
  collision_run (by decide) (by decide) (fun _ => rfl) _ twoAdds_granted twoAdds_fit

end Rbhash
