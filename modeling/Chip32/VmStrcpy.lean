import Chip32.VmBounds

/-!
# Copies of strings

The loop of `strcpy`, step by step: it moves both operands on, also where they are
pointers, and reads both in the mode of the destination.
-/
namespace Vm

section Regions

variable {ram : List Word} {r d x : Word} {word : Nat → Word} {n : Nat}

theorem inRam_iff : InRam ram r ↔ r.toNat < 2 ^ 31 ∧ r.toNat < ram.length := by
  constructor
  · intro hr
    have hn := toNat_of_nonneg hr.1
    have hlt := hr.2
    have hmax := BitVec.toInt_lt (x := r)
    omega
  · intro h
    exact inRam_of_lt h.2 h.1

theorem toNat_behind {i : Nat} (h : r.toNat + i < 2 ^ 32) : (r + .ofNat 32 i).toNat = r.toNat + i := by
  rw [BitVec.toNat_add, BitVec.toNat_ofNat, Nat.mod_eq_of_lt (by omega : i < 2 ^ 32),
    Nat.mod_eq_of_lt h]

/-- The cells from `r` to `n` cells behind it exist. -/
def Spans (ram : List Word) (r : Word) (n : Nat) : Prop := ∀ i ≤ n, InRam ram (r + .ofNat 32 i)

instance : Decidable (Spans ram r n) := inferInstanceAs (Decidable (∀ i ≤ n, _))

theorem spans_iff : Spans ram r n ↔ r.toNat + n < 2 ^ 31 ∧ r.toNat + n < ram.length := by
  constructor
  · intro hs
    induction n with
    | zero => exact inRam_iff.mp (by simpa using hs 0 (Nat.le_refl 0))
    | succ n ih =>
      have hlt := ih fun i hi => hs i (by omega)
      have hin := inRam_iff.mp (hs (n + 1) (Nat.le_refl _))
      rwa [toNat_behind (by omega)] at hin
  · intro h i hi
    rw [inRam_iff, toNat_behind (by omega)]
    omega

theorem Spans.toNat (hs : Spans ram r n) {i : Nat} (hi : i ≤ n) :
    (r + .ofNat 32 i).toNat = r.toNat + i := by
  have := spans_iff.mp hs
  exact toNat_behind (by omega)

theorem Spans.ne (hs : Spans ram r n) {i j : Nat} (hi : i ≤ n) (hj : j ≤ n) (hne : i ≠ j) :
    r + .ofNat 32 i ≠ r + .ofNat 32 j := by
  intro he
  have hn := congrArg BitVec.toNat he
  rw [hs.toNat hi, hs.toNat hj] at hn
  omega

/-- RAM with the first words written behind a cell. -/
def pasted (ram : List Word) (d : Word) (word : Nat → Word) : Nat → List Word
  | 0 => ram
  | i + 1 => (pasted ram d word i).set (d + .ofNat 32 i).toNat (word i)

@[simp] theorem length_pasted (j : Nat) : (pasted ram d word j).length = ram.length := by
  induction j with
  | zero => rfl
  | succ j ih => rw [pasted, List.length_set, ih]

@[simp] theorem inRam_pasted (j : Nat) : InRam (pasted ram d word j) x ↔ InRam ram x := by
  rw [InRam, InRam, length_pasted]

theorem cell_pasted (hs : Spans ram d n) {i j : Nat} (hi : i < j) (hj : j ≤ n + 1) :
    cell (pasted ram d word j) (d + .ofNat 32 i) = word i := by
  induction j with
  | zero => exact absurd hi (Nat.not_lt_zero i)
  | succ j ih =>
    rw [pasted]
    by_cases he : i = j
    · subst he
      exact cell_set_self ((inRam_pasted i).mpr (hs i (by omega)))
    · rw [cell_set_ne (hs.ne (by omega) (by omega) (Ne.symm he))]
      exact ih (by omega) (by omega)

theorem cell_pasted_ne {j : Nat} (hx : ∀ i < j, d + .ofNat 32 i ≠ x) :
    cell (pasted ram d word j) x = cell ram x := by
  induction j with
  | zero => rfl
  | succ j ih =>
    rw [pasted, cell_set_ne (hx j (Nat.lt_succ_self j))]
    exact ih fun i hi => hx i (by omega)

/-- The first zero from `r` on is `n` cells behind it. -/
structure TextAt (ram : List Word) (r : Word) (n : Nat) : Prop where
  spans : Spans ram r n
  nonzero : ∀ i < n, cell ram (r + .ofNat 32 i) ≠ 0
  zero : cell ram (r + .ofNat 32 n) = 0

end Regions

/-- A command whose operands have been moved on. -/
def moved (pcmd : Command) (i : Nat) : Command :=
  { pcmd with arg0 := pcmd.arg0 + .ofNat 32 i, arg1 := pcmd.arg1 + .ofNat 32 i }

/-- An iteration of the loop is free of faults. -/
structure Steps (ram : List Word) (type : Mode) (d s : Word) : Prop where
  reads : Reaches ram type s
  writes : Reaches ram type d

/-- The loop ends with its iteration `j`. -/
structure EndsAfter (h : Host) (type : Mode) (ram : List Word) (d s : Word) (j : Nat) : Prop where
  steps : ∀ i ≤ j, Steps (copied h type i ram d s) type (d + .ofNat 32 i) (s + .ofNat 32 i)
  goes : ∀ i < j, value h (copied h type i ram d s) type (s + .ofNat 32 i) ≠ 0
  ends : value h (copied h type j ram d s) type (s + .ofNat 32 j) = 0

section Loop

variable {h : Host} {c : Chip} {pcmd : Command} {ram : List Word} {type : Mode} {d s : Word}
  {i j k : Nat}

@[simp] theorem moved_zero : moved pcmd 0 = pcmd := by
  simp [moved]

@[simp] theorem moved_moved : moved (moved pcmd i) j = moved pcmd (i + j) := by
  simp [moved, BitVec.add_assoc, BitVec.ofNat_add]

theorem copied_succ : copied h type (j + 1) ram d s =
    copyStep h (copied h type j ram d s) type (d + .ofNat 32 j) (s + .ofNat 32 j) := by
  induction j generalizing ram d s with
  | zero => simp [copied]
  | succ j ih =>
    rw [copied, ih, copied, ← add_ofNat_succ, ← add_ofNat_succ]

theorem put_writable (hw : Writable type) : c.put type d (value h c.ram type s) =
    { c with ram := copyStep h c.ram type d s } := by
  rcases hw with rfl | rfl <;> rfl

/-- One iteration. -/
theorem strcpyLoop_step (hw : Writable (arg0fGet pcmd.flags))
    (hs : Steps c.ram (arg0fGet pcmd.flags) pcmd.arg0 pcmd.arg1) :
    strcpyLoop h (k + 1) c pcmd =
      if value h c.ram (arg0fGet pcmd.flags) pcmd.arg1 = 0 then
        .ok ({ c with ram := copyStep h c.ram (arg0fGet pcmd.flags) pcmd.arg0 pcmd.arg1 }, moved pcmd 1)
      else strcpyLoop h k
        { c with ram := copyStep h c.ram (arg0fGet pcmd.flags) pcmd.arg0 pcmd.arg1 } (moved pcmd 1) := by
  have hload : ¬ Unloaded h (arg0fGet pcmd.flags) pcmd.arg1 := by
    rintro ⟨hd, _⟩
    rcases hw with hw | hw <;> rw [hw] at hd <;> cases hd
  simp only [strcpyLoop, getword_reaches hs.reads, Runs.ok_bind, failIf_false hload,
    setword_reaches hs.writes, put_writable hw, Runs.pure_ok]
  rfl

theorem strcpyLoop_run (hw : Writable (arg0fGet pcmd.flags))
    (hs : ∀ i < j, Steps (copied h (arg0fGet pcmd.flags) i c.ram pcmd.arg0 pcmd.arg1)
      (arg0fGet pcmd.flags) (pcmd.arg0 + .ofNat 32 i) (pcmd.arg1 + .ofNat 32 i))
    (hv : ∀ i < j, value h (copied h (arg0fGet pcmd.flags) i c.ram pcmd.arg0 pcmd.arg1)
      (arg0fGet pcmd.flags) (pcmd.arg1 + .ofNat 32 i) ≠ 0) :
    strcpyLoop h (k + j) c pcmd = strcpyLoop h k
      { c with ram := copied h (arg0fGet pcmd.flags) j c.ram pcmd.arg0 pcmd.arg1 } (moved pcmd j) := by
  induction j generalizing k with
  | zero => simp [copied]
  | succ j ih =>
    have hk : k + (j + 1) = k + 1 + j := by omega
    rw [hk, ih (fun i hi => hs i (by omega)) (fun i hi => hv i (by omega)),
      @strcpyLoop_step h { c with ram := _ } (moved pcmd j) k hw (hs j (Nat.lt_succ_self j)),
      moved_moved, copied_succ]
    exact if_neg (hv j (Nat.lt_succ_self j))

theorem strcpyLoop_ends (hw : Writable (arg0fGet pcmd.flags))
    (he : EndsAfter h (arg0fGet pcmd.flags) c.ram pcmd.arg0 pcmd.arg1 j) (hj : j < k) :
    strcpyLoop h k c pcmd = .ok ({ c with
      ram := copied h (arg0fGet pcmd.flags) (j + 1) c.ram pcmd.arg0 pcmd.arg1 }, moved pcmd (j + 1)) := by
  obtain ⟨m, rfl⟩ := Nat.exists_eq_add_of_lt hj
  have hk : j + m + 1 = m + 1 + j := by omega
  rw [hk, strcpyLoop_run hw (fun i hi => he.steps i (Nat.le_of_lt hi)) he.goes,
    @strcpyLoop_step h { c with ram := _ } (moved pcmd j) m hw (he.steps j (Nat.le_refl j)),
    moved_moved, copied_succ]
  exact if_pos he.ends

/-- What an iteration that is not the last one has in front of it. -/
theorem EndsAfter.cons (hs : Steps ram type d s) (hv : value h ram type s ≠ 0)
    (he : EndsAfter h type (copyStep h ram type d s) (d + 1) (s + 1) j) :
    EndsAfter h type ram d s (j + 1) := by
  constructor
  · intro i hi
    cases i with
    | zero => simpa [copied] using hs
    | succ i =>
      rw [copied, add_ofNat_succ, add_ofNat_succ]
      exact he.steps i (by omega)
  · intro i hi
    cases i with
    | zero => simpa [copied] using hv
    | succ i =>
      rw [copied, add_ofNat_succ]
      exact he.goes i (by omega)
  · rw [copied, add_ofNat_succ]
    exact he.ends

theorem strcpyLoop_steps {x : Chip × Command} (hx : strcpyLoop h k c pcmd = .ok x) :
    0 < k ∧ Steps c.ram (arg0fGet pcmd.flags) pcmd.arg0 pcmd.arg1 := by
  cases k with
  | zero => cases hx
  | succ k =>
    rw [strcpyLoop] at hx
    obtain ⟨v, hv, hx⟩ := Runs.bind_eq_ok.mp hx
    obtain ⟨c', hc, _⟩ := Runs.bind_eq_ok.mp hx
    have hreads := reaches_of_getword hv
    cases getword_eq hv
    refine ⟨Nat.succ_pos k, hreads, ?_⟩
    by_contra hr
    rw [setword_unreached (c := c.failIf _) hr] at hc
    cases hc

/-- A loop that ends has an iteration that it ends with. -/
theorem strcpyLoop_ok (hw : Writable (arg0fGet pcmd.flags)) {x : Chip × Command}
    (hx : strcpyLoop h k c pcmd = .ok x) :
    ∃ j < k, EndsAfter h (arg0fGet pcmd.flags) c.ram pcmd.arg0 pcmd.arg1 j := by
  induction k generalizing c pcmd with
  | zero => cases hx
  | succ k ih =>
    have hs := (strcpyLoop_steps hx).2
    by_cases hv : value h c.ram (arg0fGet pcmd.flags) pcmd.arg1 = 0
    · refine ⟨0, Nat.succ_pos k, fun i hi => ?_, fun i hi => absurd hi (Nat.not_lt_zero i), ?_⟩
      · rw [Nat.le_zero.mp hi]
        simpa [copied] using hs
      · simpa [copied] using hv
    · rw [strcpyLoop_step hw hs, if_neg hv] at hx
      obtain ⟨j, hj, he⟩ := @ih _ (moved pcmd 1) hw hx
      exact ⟨j + 1, Nat.succ_lt_succ hj, .cons hs hv he⟩

theorem EndsAfter.unique (he : EndsAfter h type ram d s i) (he' : EndsAfter h type ram d s j) :
    i = j := by
  obtain hlt | heq | hgt := Nat.lt_trichotomy i j
  · exact absurd he.ends (he'.goes i hlt)
  · exact heq
  · exact absurd he'.ends (he.goes j hgt)

/-- The loop comes to its end before it has gone around. -/
theorem EndsAfter.lt (hw : Writable type) (he : EndsAfter h type ram d s j) : j < 2 ^ 32 := by
  by_contra hj
  have hany := reaches_around fun i hi => (he.steps i (by omega)).reads
  have hout : ¬ InRam ram (-1) := fun hin => absurd hin.1 (by decide)
  rcases hw with rfl | rfl
  · exact hout (hany ram (-1))
  · exact hout (hany ram (-1)).1

/-- The loop that is cut off after `k` iterations has ended by then or has not. -/
theorem strcpyLoop_ok_iff (hw : Writable (arg0fGet pcmd.flags))
    (he : EndsAfter h (arg0fGet pcmd.flags) c.ram pcmd.arg0 pcmd.arg1 j) :
    (∃ x, strcpyLoop h k c pcmd = .ok x) ↔ j + 1 ≤ k := by
  constructor
  · rintro ⟨x, hx⟩
    obtain ⟨i, hi, he'⟩ := strcpyLoop_ok hw hx
    rw [he.unique he']
    exact hi
  · intro hj
    exact ⟨_, strcpyLoop_ends hw he hj⟩

theorem strcpy_eq_ok (hw : Writable (arg0fGet pcmd.flags)) {x : Chip × Command} :
    cmdStrcpy h c pcmd = .ok x ↔
      ∃ j, EndsAfter h (arg0fGet pcmd.flags) c.ram pcmd.arg0 pcmd.arg1 j ∧
        x = ({ c with ram := copied h (arg0fGet pcmd.flags) (j + 1) c.ram pcmd.arg0 pcmd.arg1 },
          moved pcmd (j + 1)) := by
  constructor
  · intro hx
    obtain ⟨j, hj, he⟩ := strcpyLoop_ok hw hx
    refine ⟨j, he, ?_⟩
    have hends := strcpyLoop_ends hw he hj
    exact Except.ok.inj (hx.symm.trans hends)
  · rintro ⟨j, he, rfl⟩
    exact strcpyLoop_ends hw he (he.lt hw)

end Loop

/-- Iteration `i` in RAM that has the first words already: the operands, moved on and
read in the mode of the destination, stand for word `i` and for cell `i` behind `D`. -/
structure Lands (h : Host) (ram : List Word) (type : Mode) (d s D : Word) (word : Nat → Word)
    (i : Nat) : Prop where
  steps : Steps (pasted ram D word i) type (d + .ofNat 32 i) (s + .ofNat 32 i)
  read : value h (pasted ram D word i) type (s + .ofNat 32 i) = word i
  written : destination (pasted ram D word i) type (d + .ofNat 32 i) = some (D + .ofNat 32 i)

section Copies

variable {h : Host} {c : Chip} {pcmd : Command} {ram : List Word} {type : Mode} {d s D S : Word}
  {word : Nat → Word} {i j n : Nat}

theorem copied_pasted (hl : ∀ i < j, Lands h ram type d s D word i) :
    copied h type j ram d s = pasted ram D word j := by
  induction j with
  | zero => rfl
  | succ j ih =>
    have hj := hl j (Nat.lt_succ_self j)
    rw [copied_succ, ih fun i hi => hl i (by omega), copyStep, hj.written, hj.read, pasted]

theorem endsAfter_of_lands (hl : ∀ i ≤ n, Lands h ram type d s D word i) (hv : ∀ i < n, word i ≠ 0)
    (hz : word n = 0) : EndsAfter h type ram d s n := by
  have hram : ∀ i ≤ n, copied h type i ram d s = pasted ram D word i :=
    fun i hi => copied_pasted fun j hj => hl j (by omega)
  constructor
  · intro i hi
    rw [hram i hi]
    exact (hl i hi).steps
  · intro i hi
    rw [hram i (Nat.le_of_lt hi), (hl i (Nat.le_of_lt hi)).read]
    exact hv i hi
  · rw [hram n (Nat.le_refl n), (hl n (Nat.le_refl n)).read]
    exact hz

/-- Between cells the loop writes what it reads. -/
theorem copied_ram : copied h .ram j ram d s =
    pasted ram d (fun i => cell (copied h .ram i ram d s) (s + .ofNat 32 i)) j := by
  induction j with
  | zero => rfl
  | succ j ih => rw [copied_succ, pasted, ← ih]; rfl

theorem spans_of_ends (he : EndsAfter h .ram ram d s n) : Spans ram d n ∧ Spans ram s n := by
  have hin : ∀ i ≤ n, ∀ x, InRam (copied h .ram i ram d s) x → InRam ram x := by
    intro i _ x hx
    rw [copied_ram] at hx
    exact (inRam_pasted i).mp hx
  exact ⟨fun i hi => hin i hi _ (he.steps i hi).writes, fun i hi => hin i hi _ (he.steps i hi).reads⟩

/-- The destination does not begin inside the text. -/
def Clear (d s : Word) (n : Nat) : Prop := d.toNat ≤ s.toNat ∨ s.toNat + n < d.toNat

theorem Clear.ne (hc : Clear d s n) (hd : Spans ram d n) (hs : Spans ram s n) (hi : i ≤ n) :
    ∀ k < i, d + .ofNat 32 k ≠ s + .ofNat 32 i := by
  intro k hk he
  have hn := congrArg BitVec.toNat he
  rw [hd.toNat (by omega), hs.toNat hi] at hn
  rcases hc with hc | hc <;> omega

/-- What is copied from behind `s` on, where nothing is read that was written. -/
theorem lands_ram (hd : Spans ram d n) (hs : Spans ram s n) (hc : Clear d s n)
    (hw : ∀ i ≤ n, cell ram (s + .ofNat 32 i) = word i) (hi : i ≤ n) :
    Lands h ram .ram d s d word i where
  steps := ⟨(inRam_pasted i).mpr (hs i hi), (inRam_pasted i).mpr (hd i hi)⟩
  read := by
    rw [← hw i hi]
    exact cell_pasted_ne (hc.ne hd hs hi)
  written := rfl

/-- The loop writes its own zero only once. -/
theorem clear_of_ends (he : EndsAfter h .ram ram d s n) : Clear d s n := by
  obtain ⟨hd, hs⟩ := spans_of_ends he
  by_contra hc
  obtain ⟨hlt, hle⟩ := not_or.mp hc
  obtain ⟨p, hp⟩ := Nat.exists_eq_add_of_lt (Nat.not_le.mp hlt)
  have hback : s + .ofNat 32 n = d + .ofNat 32 (n - (p + 1)) := by
    rw [← BitVec.toNat_inj, hs.toNat (Nat.le_refl n), hd.toNat (by omega)]
    omega
  have hread : value h (copied h .ram n ram d s) .ram (s + .ofNat 32 n) =
      value h (copied h .ram (n - (p + 1)) ram d s) .ram (s + .ofNat 32 (n - (p + 1))) := by
    rw [value, hback, copied_ram, cell_pasted hd (by omega) (by omega)]
    rfl
  exact he.goes (n - (p + 1)) (by omega) (hread.symm.trans he.ends)

theorem reads_of_ends (he : EndsAfter h .ram ram d s n) (hi : i ≤ n) :
    value h (copied h .ram i ram d s) .ram (s + .ofNat 32 i) = cell ram (s + .ofNat 32 i) := by
  obtain ⟨hd, hs⟩ := spans_of_ends he
  rw [value, copied_ram]
  exact cell_pasted_ne ((clear_of_ends he).ne hd hs hi)

end Copies

/-- The cell that a `$` or `*` operand starts at. -/
def begins (ram : List Word) (type : Mode) (r : Word) : Word := (destination ram type r).getD r

def registers : List Word := [regPc, regStk, regFrm]

/-- A text at the source and room for it, apart from each other, from the cells of
pointers and from the registers. -/
structure CopyRequest (ram : List Word) (pcmd : Command) (D S : Word) (n : Nat) : Prop where
  dest : Writable (arg0fGet pcmd.flags) ∧ begins ram (arg0fGet pcmd.flags) pcmd.arg0 = D
  source : Writable (arg1fGet pcmd.flags) ∧ begins ram (arg1fGet pcmd.flags) pcmd.arg1 = S
  text : TextAt ram S n
  room : Spans ram D n
  apart : ∀ i ≤ n, ∀ j ≤ n, D + .ofNat 32 i ≠ S + .ofNat 32 j
  destPointer : arg0fGet pcmd.flags = .ptr → InRam ram pcmd.arg0 ∧
    ∀ i ≤ n, D + .ofNat 32 i ≠ pcmd.arg0 ∧ S + .ofNat 32 i ≠ pcmd.arg0
  sourcePointer : arg1fGet pcmd.flags = .ptr → InRam ram pcmd.arg1 ∧
    ∀ i ≤ n, D + .ofNat 32 i ≠ pcmd.arg1 ∧ S + .ofNat 32 i ≠ pcmd.arg1
  registers : ∀ i ≤ n, D + .ofNat 32 i ∉ registers ∧ S + .ofNat 32 i ∉ registers

/-- The words behind `S` are behind `D`, and every other cell but the PC is as it was. -/
def Holds (ram ram' : List Word) (D S : Word) (n : Nat) : Prop :=
  (∀ i ≤ n, cell ram' (D + .ofNat 32 i) = cell ram (S + .ofNat 32 i)) ∧
    ∀ x, x ≠ regPc → (∀ i ≤ n, D + .ofNat 32 i ≠ x) → cell ram' x = cell ram x

/-- `strcpy` ends, with the copy made. -/
def Copies (h : Host) (c : Chip) (pcmd : Command) (D S : Word) (n : Nat) : Prop :=
  ∃ x, cmdStrcpy h c pcmd = .ok x ∧ Holds c.ram x.1.ram D S n

/-- The words that a `$` destination gets, from the cells behind the source operand. -/
structure SameText (ram : List Word) (d s S : Word) (n : Nat) : Prop where
  text : ∀ i ≤ n, InRam ram (s + .ofNat 32 i) ∧
    cell ram (s + .ofNat 32 i) = cell ram (S + .ofNat 32 i)
  clear : Clear d s n

section Requests

variable {h : Host} {c : Chip} {pcmd : Command} {D S : Word} {n : Nat}

theorem holds_pasted {ram : List Word} {word : Nat → Word} (hd : Spans ram D n)
    (hw : ∀ i ≤ n, word i = cell ram (S + .ofNat 32 i)) :
    Holds ram (pasted ram D word (n + 1)) D S n := by
  constructor
  · intro i hi
    rw [cell_pasted hd (Nat.lt_succ_of_le hi) (Nat.le_refl _), hw i hi]
  · intro x _ hx
    exact cell_pasted_ne fun i hi => hx i (Nat.le_of_lt_succ hi)

theorem CopyRequest.copies (hreq : CopyRequest c.ram pcmd D S n)
    (hl : ∀ i ≤ n, Lands h c.ram (arg0fGet pcmd.flags) pcmd.arg0 pcmd.arg1 D
      (fun i => cell c.ram (S + .ofNat 32 i)) i) : Copies h c pcmd D S n := by
  have he := endsAfter_of_lands hl hreq.text.nonzero hreq.text.zero
  refine ⟨_, (strcpy_eq_ok hreq.dest.1).mpr ⟨n, he, rfl⟩, ?_⟩
  rw [copied_pasted fun i hi => hl i (Nat.le_of_lt_succ hi)]
  exact holds_pasted hreq.room fun _ _ => rfl

theorem CopyRequest.sameText (hreq : CopyRequest c.ram pcmd D S n)
    (hmode : arg0fGet pcmd.flags = .ram) (hcopy : Copies h c pcmd D S n) :
    SameText c.ram pcmd.arg0 pcmd.arg1 S n := by
  have hD : pcmd.arg0 = D := by simpa [begins, destination, hmode] using hreq.dest.2
  obtain ⟨x, hx, hregion, _⟩ := hcopy
  obtain ⟨k, he, rfl⟩ := (strcpy_eq_ok hreq.dest.1).mp hx
  rw [hmode] at he hregion
  obtain ⟨hd, hs⟩ := spans_of_ends he
  -- what is read is what is in the destination at the end
  have hword : ∀ i ≤ n, i ≤ k → cell c.ram (pcmd.arg1 + .ofNat 32 i) =
      cell c.ram (S + .ofNat 32 i) := by
    intro i hi hik
    rw [← hregion i hi, ← hD, copied_ram, cell_pasted hd (Nat.lt_succ_of_le hik) (Nat.le_refl _)]
    exact (reads_of_ends he hik).symm
  have hkn : k = n := by
    obtain hlt | heq | hgt := Nat.lt_trichotomy k n
    · have hz := (reads_of_ends he (Nat.le_refl k)).symm.trans he.ends
      rw [hword k (Nat.le_of_lt hlt) (Nat.le_refl k)] at hz
      exact absurd hz (hreq.text.nonzero k hlt)
    · exact heq
    · have hz := he.goes n hgt
      rw [reads_of_ends he (Nat.le_of_lt hgt), hword n (Nat.le_refl n) (Nat.le_of_lt hgt)] at hz
      exact absurd hreq.text.zero hz
  rw [hkn] at he
  exact ⟨fun i hi => ⟨(spans_of_ends he).2 i hi, hword i hi (hkn ▸ hi)⟩, clear_of_ends he⟩

/-- The condition of a copy, by the mode of its destination. -/
def ReadsRight (h : Host) (ram : List Word) (pcmd : Command) (D S : Word) (n : Nat) : Prop :=
  match arg0fGet pcmd.flags with
  | .ram => SameText ram pcmd.arg0 pcmd.arg1 S n
  | type => ∀ i ≤ n, Lands h ram type pcmd.arg0 pcmd.arg1 D (fun i => cell ram (S + .ofNat 32 i)) i

/-- Both operands are read in the mode of the destination. To a `$` destination the copy
is right exactly when the cells behind the source operand hold the text; to a `*`
destination it is when the cells behind both operands point to the text and the
destination, word by word. -/
theorem strcpy_modes (hreq : CopyRequest c.ram pcmd D S n) :
    (ReadsRight h c.ram pcmd D S n → Copies h c pcmd D S n) ∧
      (arg0fGet pcmd.flags = .ram → Copies h c pcmd D S n → ReadsRight h c.ram pcmd D S n) := by
  rcases hreq.dest.1 with hmode | hmode
  · constructor
    · intro hright
      rw [ReadsRight, hmode] at hright
      have hD : pcmd.arg0 = D := by simpa [begins, destination, hmode] using hreq.dest.2
      refine hreq.copies fun i hi => ?_
      rw [hmode, ← hD]
      exact lands_ram (hD ▸ hreq.room) (fun j hj => (hright.text j hj).1) hright.clear
        (fun j hj => (hright.text j hj).2) hi
    · intro _ hcopy
      rw [ReadsRight, hmode]
      exact hreq.sameText hmode hcopy
  · constructor
    · intro hright
      rw [ReadsRight, hmode] at hright
      refine hreq.copies fun i hi => ?_
      rw [hmode]
      exact hright i hi
    · intro hram
      rw [hmode] at hram
      cases hram

end Requests

/-- The cells 36 and 37 point to 48 and 49, the cells 40 and 41 to a text at 44. -/
def tablesChip : Chip := { Chip.new [] with
  ram := List.replicate 36 0 ++ [48, 49, 0, 0, 44, 45, 0, 0, 72, 0, 0, 0, 0, 0] }

/-- `strcpy *36, *40`. -/
theorem strcpy_modes_tables : Copies emptyHost tablesChip ⟨10, 0x50, 36, 40⟩ 48 44 1 := by
  have hreq : CopyRequest tablesChip.ram ⟨10, 0x50, 36, 40⟩ 48 44 1 :=
    ⟨⟨.inr rfl, rfl⟩, ⟨.inr rfl, rfl⟩, ⟨by decide, by decide, by decide⟩, by decide, by decide,
      fun _ => by decide, fun _ => by decide, by decide⟩
  have hl : ∀ i ≤ 1, Lands emptyHost tablesChip.ram .ptr 36 40 48
      (fun i => cell tablesChip.ram (44 + .ofNat 32 i)) i := by
    intro i hi
    obtain rfl | rfl : i = 0 ∨ i = 1 := by omega
    · exact ⟨⟨by decide, by decide⟩, rfl, rfl⟩
    · exact ⟨⟨by decide, by decide⟩, rfl, rfl⟩
  exact (strcpy_modes hreq).1 hl

/-- Cell 36 points to a text at 44. -/
def pointerChip : Chip := { Chip.new [] with
  ram := List.replicate 36 0 ++ [44, 0, 0, 0, 0, 0, 0, 0, 72, 0] }

/-- `strcpy $40, *36` copies the pointer. -/
theorem strcpy_pointer_wrong : CopyRequest pointerChip.ram ⟨9, 0x50, 40, 36⟩ 40 44 1 ∧
    ¬ Copies emptyHost pointerChip ⟨9, 0x50, 40, 36⟩ 40 44 1 := by
  have hreq : CopyRequest pointerChip.ram ⟨9, 0x50, 40, 36⟩ 40 44 1 :=
    ⟨⟨.inl rfl, rfl⟩, ⟨.inr rfl, rfl⟩, ⟨by decide, by decide, by decide⟩, by decide, by decide,
      fun he => absurd he (by decide), fun _ => by decide, by decide⟩
  refine ⟨hreq, fun hcopy => ?_⟩
  have hsame := (hreq.sameText rfl hcopy).text 0 (Nat.zero_le 1)
  exact absurd hsame.2 (by decide)

/-- The loop ends with its iteration `n + 1`, the words behind `s` are behind `d`, and every
other cell is as it was. -/
def CopiesWords (h : Host) (c : Chip) (pcmd : Command) (n : Nat) : Prop :=
  (∀ k, (∃ x, strcpyLoop h k c pcmd = .ok x) ↔ n + 1 ≤ k) ∧ ∃ x, cmdStrcpy h c pcmd = .ok x ∧
    (∀ i ≤ n, cell x.1.ram (pcmd.arg0 + .ofNat 32 i) = cell c.ram (pcmd.arg1 + .ofNat 32 i)) ∧
    ∀ y, (∀ i ≤ n, pcmd.arg0 + .ofNat 32 i ≠ y) → cell x.1.ram y = cell c.ram y

/-- No zero is read as long as the words that have been written are inside RAM, and then
one is written outside. -/
def RunsOff (h : Host) (c : Chip) (pcmd : Command) : Prop :=
  (∀ j, (∀ i < j, InRam c.ram (pcmd.arg0 + .ofNat 32 i)) →
    cell (copied h .ram j c.ram pcmd.arg0 pcmd.arg1) (pcmd.arg1 + .ofNat 32 j) ≠ 0) ∧
    cmdStrcpy h c pcmd = .error .ramBounds

section Overlaps

variable {h : Host} {c : Chip} {pcmd : Command} {ram : List Word} {d s : Word} {j k n p : Nat}

/-- The copy of the words in front of `d` repeats them, and its zero is never reached. -/
theorem nonzero_ahead (ht : TextAt ram s n) (hd : d.toNat = s.toNat + (p + 1)) (hp : p + 1 ≤ n)
    (hin : ∀ i < j, InRam ram (d + .ofNat 32 i)) :
    ∀ i < p + 1 + j, cell (copied h .ram j ram d s) (s + .ofNat 32 i) ≠ 0 := by
  induction j with
  | zero => exact fun i hi => ht.nonzero i (by omega)
  | succ j ih =>
    intro i hi
    have ih := ih fun i hi => hin i (Nat.lt_succ_of_lt hi)
    have hj := hin j (Nat.lt_succ_self j)
    have hsp : Spans ram d j := fun i hi => hin i (Nat.lt_succ_of_le hi)
    have hdj := hsp.toNat (Nat.le_refl j)
    have hmax := (spans_iff.mp hsp).1
    rw [copied_succ, copyStep, destination]
    by_cases he : i = p + 1 + j
    · have hsame : s + .ofNat 32 i = d + .ofNat 32 j := by
        rw [← BitVec.toNat_inj, hdj, toNat_behind (by omega)]
        omega
      have hj' : InRam (copied h .ram j ram d s) (d + .ofNat 32 j) := by
        rw [copied_ram, inRam_pasted]
        exact hj
      rw [hsame, cell_set_self hj']
      exact ih j (by omega)
    · have hne : d + .ofNat 32 j ≠ s + .ofNat 32 i := by
        intro he'
        rw [← BitVec.toNat_inj, hdj, toNat_behind (by omega)] at he'
        omega
      rw [cell_set_ne hne]
      exact ih i (by omega)

theorem strcpyLoop_outside (hr : Reaches c.ram (arg0fGet pcmd.flags) pcmd.arg1)
    (hout : ¬ Reaches c.ram (arg0fGet pcmd.flags) pcmd.arg0) :
    strcpyLoop h (k + 1) c pcmd = .error .ramBounds := by
  simp only [strcpyLoop, getword_reaches hr, Runs.ok_bind, setword_unreached (c := c.failIf _) hout,
    Runs.error_bind]

/-- The loop that follows its own copy goes as far as its destination can. -/
theorem strcpy_follows (hmode : arg0fGet pcmd.flags = .ram) (ht : TextAt c.ram pcmd.arg1 n)
    (hd : pcmd.arg0.toNat = pcmd.arg1.toNat + (p + 1)) (hp : p + 1 ≤ n) :
    cmdStrcpy h c pcmd = .error .ramBounds := by
  have hn := spans_iff.mp ht.spans
  obtain ⟨j, hj⟩ : ∃ j, pcmd.arg0.toNat + j = min c.ram.length (2 ^ 31) :=
    ⟨min c.ram.length (2 ^ 31) - pcmd.arg0.toNat, by omega⟩
  have hdest : ∀ i ≤ j, (pcmd.arg0 + .ofNat 32 i).toNat = pcmd.arg0.toNat + i :=
    fun i _ => toNat_behind (by omega)
  have hsource : ∀ i ≤ j, (pcmd.arg1 + .ofNat 32 i).toNat = pcmd.arg1.toNat + i :=
    fun i _ => toNat_behind (by omega)
  have hreads : ∀ i ≤ j,
      InRam (copied h .ram i c.ram pcmd.arg0 pcmd.arg1) (pcmd.arg1 + .ofNat 32 i) := by
    intro i hi
    rw [copied_ram, inRam_pasted, inRam_iff, hsource i hi]
    omega
  have hwrites : ∀ i < j, InRam c.ram (pcmd.arg0 + .ofNat 32 i) := by
    intro i hi
    rw [inRam_iff, hdest i (Nat.le_of_lt hi)]
    omega
  have hrun := @strcpyLoop_run h c pcmd j (2 ^ 32 - 1 - j + 1) (.inl hmode)
    (fun i hi => by
      rw [hmode]
      refine ⟨hreads i (Nat.le_of_lt hi), ?_⟩
      rw [copied_ram]
      exact (inRam_pasted i).mpr (hwrites i hi))
    (fun i hi => by
      rw [hmode]
      exact nonzero_ahead ht hd hp (fun k hk => hwrites k (by omega)) i (by omega))
  have hfuel : 2 ^ 32 - 1 - j + 1 + j = 2 ^ 32 := by omega
  rw [cmdStrcpy, ← hfuel, hrun]
  refine strcpyLoop_outside (hmode ▸ hreads j (Nat.le_refl j)) ?_
  rw [show arg0fGet (moved pcmd j).flags = .ram from hmode, hmode, Reaches, copied_ram, inRam_pasted,
    inRam_iff, moved, hdest j (Nat.le_refl j)]
  omega

theorem copiesWords_clear (hmode : arg0fGet pcmd.flags = .ram) (ht : TextAt c.ram pcmd.arg1 n)
    (hclear : Clear pcmd.arg0 pcmd.arg1 n) (hroom : Spans c.ram pcmd.arg0 n) :
    CopiesWords h c pcmd n := by
  have hw : Writable (arg0fGet pcmd.flags) := .inl hmode
  have hl := fun i (hi : i ≤ n) => lands_ram (h := h) hroom ht.spans hclear (fun _ _ => rfl) hi
  have he := endsAfter_of_lands hl ht.nonzero ht.zero
  rw [← hmode] at he
  refine ⟨fun k => strcpyLoop_ok_iff hw he, _, (strcpy_eq_ok hw).mpr ⟨n, he, rfl⟩, ?_⟩
  rw [hmode, copied_pasted fun i hi => hl i (Nat.le_of_lt_succ hi)]
  constructor
  · intro i hi
    exact cell_pasted hroom (Nat.lt_succ_of_le hi) (Nat.le_refl _)
  · intro y hy
    exact cell_pasted_ne fun i hi => hy i (Nat.le_of_lt_succ hi)

/-- A copy between cells. Where the destination does not begin inside the text, all is
copied in as many iterations as there are words; where it does, no zero is ever read and
the loop runs off the end of RAM. -/
theorem strcpy_overlap (hmode : arg0fGet pcmd.flags = .ram) (ht : TextAt c.ram pcmd.arg1 n) :
    (Clear pcmd.arg0 pcmd.arg1 n → Spans c.ram pcmd.arg0 n → CopiesWords h c pcmd n) ∧
      (¬ Clear pcmd.arg0 pcmd.arg1 n → RunsOff h c pcmd) := by
  refine ⟨copiesWords_clear hmode ht, fun hclear => ?_⟩
  obtain ⟨hlt, hle⟩ := not_or.mp hclear
  obtain ⟨p, hp⟩ := Nat.exists_eq_add_of_lt (Nat.not_le.mp hlt)
  have hd : pcmd.arg0.toNat = pcmd.arg1.toNat + (p + 1) := by omega
  refine ⟨fun j hin => ?_, strcpy_follows hmode ht hd (by omega)⟩
  exact nonzero_ahead ht hd (by omega) hin j (by omega)

/-- A text of two words in cell 45. -/
def textChip : Chip := { Chip.new [] with ram := List.replicate 45 0 ++ [72, 105, 0] }

/-- `strcpy $44, $45` moves it one cell to the left; `strcpy $46, $45` does not end. -/
theorem strcpy_overlap_text : CopiesWords emptyHost textChip ⟨5, 0x50, 44, 45⟩ 2 ∧
    RunsOff emptyHost textChip ⟨5, 0x50, 46, 45⟩ := by
  have htext : TextAt textChip.ram 45 2 := ⟨by decide, by decide, by decide⟩
  have hleft := @strcpy_overlap emptyHost textChip ⟨5, 0x50, 44, 45⟩ 2 rfl htext
  have hright := @strcpy_overlap emptyHost textChip ⟨5, 0x50, 46, 45⟩ 2 rfl htext
  exact ⟨hleft.1 (.inl (by decide)) (by decide), hright.2 (by rw [Clear]; decide)⟩

end Overlaps

end Vm
