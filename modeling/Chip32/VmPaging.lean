import Chip32.VmPage

/-!
# Paged and flat execution

The flat machine has the whole program in memory. `chip32_run` on a saved
program is the flat machine as long as the program counter stays inside the
first page. Past it the loop asks for a page by its number, where the loader
wants the number of the page's first command, and then indexes the page by the
program counter itself.
-/
namespace Vm

open ObjectFile (commandsSave unloaded pageLoad pageLoad_commandsSave)

/-- An iteration of the machine that never loads a page. -/
def flatTurn (h : Host) (prog : List Command) (c : Chip) : Except Fault (Runs.Outcome Chip) :=
  if c.state ≠ .running then pure (.stop c)
  else do
    let pc ← load c regPc
    match prog[(pc.signExtend 64).toNat]? with
    | none => pure (.stop c)
    | some pcmd => do
      let (d, _) ← execute h c pcmd
      pure (.next d)

/-- Its start: the first command, which is an `initr`. -/
def flatStart (h : Host) (prog : List Command) : Except Fault (Runs.Outcome Chip) :=
  match prog with
  | [] => .error .pageBounds
  | pcmd :: _ => do
    let (c, _) ← cmdInitr h (Chip.new []) pcmd
    if c.state = .fail then pure (.stop c) else pure (.next c)

def flatRun (h : Host) (prog : List Command) (k : Nat) : Except Fault (Runs.Outcome Chip) := do
  match ← flatStart h prog with
  | .stop c => pure (.stop c)
  | .next c => Runs.iterate (flatTurn h prog) k c

/-- The page `chip32_run` loads first from a saved program, into the buffer `buf`. -/
def firstPage (prog buf : List Command) : Page where
  data := prog.take buf.length ++ (buf.drop prog.length).map unloaded
  current := 0
  size := BitVec.ofNat 32 buf.length

/-- The flat machine's state, with the first page loaded. -/
def onPage (prog buf : List Command) (c : Chip) : Loop :=
  ⟨c.withPage (firstPage prog buf), Int.ofNat (prog.take buf.length).length⟩

/-- The program counter is in `0..n-1`. -/
def Within (c : Chip) (n : Nat) : Prop :=
  0 ≤ (cell c.ram regPc).toInt ∧ (cell c.ram regPc).toInt < n

instance (c : Chip) (n : Nat) : Decidable (Within c n) := inferInstanceAs (Decidable (_ ∧ _))

/-- The command of the next dispatch is fetched from inside the page, and is the program's. -/
def FlatFetch (h : Host) (prog : List Command) (s : Loop) : Prop :=
  ∃ t, turnPage h s = .ok (.next t) ∧ pcIndex t.chip < t.chip.pagesize.toNat ∧
    (current t.chip).isSome ∧ current t.chip = prog[pcIndex s.chip]?

section Index

theorem signExtend_toNat {r : Word} (h : 0 ≤ r.toInt) : (r.signExtend 64).toNat = r.toNat := by
  have hm : r.msb = false := by
    rw [BitVec.msb_eq_toInt]
    simpa using h
  rw [BitVec.signExtend_eq_setWidth_of_msb_false hm, BitVec.toNat_setWidth_of_le (by omega)]

/-- An index below `2^32` comes from a program counter that is not negative. -/
theorem nonneg_of_index {r : Word} (h : (r.signExtend 64).toNat < 2 ^ 32) : 0 ≤ r.toInt := by
  by_contra hneg
  have hm : r.msb = true := by
    rw [BitVec.msb_eq_toInt]
    simpa using hneg
  have hlt := r.isLt
  rw [BitVec.toNat_signExtend, hm] at h
  simp at h
  omega

theorem pageOf_of_lt {r size : Word} (h : (r.signExtend 64).toNat < size.toNat) :
    pageOf r size = 0 := by
  refine BitVec.eq_of_toNat_eq ?_
  rw [pageOf, BitVec.toNat_setWidth, BitVec.toNat_udiv, BitVec.toNat_setWidth_of_le (by omega),
    Nat.div_eq_of_lt h]
  rfl

end Index

/-- A program `chip32_run` starts and no command of which rewrites itself. -/
structure Runnable (prog : List Command) : Prop where
  first : prog.head?.map Command.cmd = some Opcode.initr.code
  keeps : ∀ pcmd ∈ prog, ¬ Rewrites (.ofCode pcmd.cmd)

section Paging

variable {prog buf : List Command} {malloc : Word → Option (Nat → Word)} {un : Unspecified}
  {c : Chip} {n k : Nat} (hbuf : 1 ≤ buf.length ∧ buf.length < 2 ^ 32)

theorem Within.index (hw : Within c n) : pcIndex c = (cell c.ram regPc).toNat ∧
    (cell c.ram regPc).toInt = pcIndex c ∧ pcIndex c < n := by
  have hi : pcIndex c = (cell c.ram regPc).toNat := signExtend_toNat hw.1
  have ht := toNat_of_nonneg hw.1
  obtain ⟨_, hlt⟩ := hw
  omega

theorem Within.mono {m : Nat} (hw : Within c m) (h : m ≤ n) : Within c n :=
  ⟨hw.1, Int.lt_of_lt_of_le hw.2 (by exact_mod_cast h)⟩

theorem firstPage_getElem (hlt : n < buf.length) (hn : n < prog.length) :
    (firstPage prog buf).data[n]? = prog[n]? := by
  rw [firstPage, List.getElem?_append_left (by simp; omega), List.getElem?_take_of_lt hlt]

theorem length_firstPage : (firstPage prog buf).data.length = buf.length := by
  simp only [firstPage, List.length_append, List.length_take, List.length_map, List.length_drop]
  omega

/-- Inside the first page no page is loaded. -/
theorem turnPage_first {h : Host} {s : Loop} (hs : s.chip.state = .running)
    (hin : InRam s.chip.ram regPc) (hcur : s.chip.pagecurrent = 0)
    (hsize : s.chip.pagesize.toNat = n) (hw : Within s.chip n) :
    turnPage h s = .ok (if s.ncmds ≤ pcIndex s.chip then .stop s else .next s) := by
  obtain ⟨_, hint, hlt⟩ := hw.index
  have hpage : pageOf (cell s.chip.ram regPc) s.chip.pagesize = 0 :=
    pageOf_of_lt (by rw [hsize]; exact hlt)
  have hz : s.chip.pagesize ≠ 0 := by
    intro hzero
    rw [hzero] at hsize
    simp at hsize
    omega
  have hmod : (cell s.chip.ram regPc).toInt.tmod s.chip.pagesize.toNat = pcIndex s.chip := by
    rw [hint, hsize]
    exact Int.tmod_eq_of_lt (by omega) (by omega)
  simp only [turnPage, hs, ne_eq, not_true_eq_false, if_false, load_ok hin, Runs.ok_bind, hz, hpage,
    hcur, and_false, hmod]
  split <;> rfl

include hbuf

theorem firstPage_size (prog : List Command) : (firstPage prog buf).size.toNat = buf.length := by
  rw [firstPage, BitVec.toNat_ofNat, Nat.mod_eq_of_lt hbuf.2]

/-- Inside the first page no page is loaded, and the loop stops behind the program. -/
theorem turnPage_onPage (prog : List Command) {h : Host} (hs : c.state = .running) (hin : InRam c.ram regPc)
    (hw : Within c buf.length) :
    turnPage h (onPage prog buf c) =
      .ok (if prog.length ≤ pcIndex c then .stop (onPage prog buf c)
        else .next (onPage prog buf c)) := by
  have hlt := hw.index.2.2
  have hcmds : (onPage prog buf c).ncmds = (prog.take buf.length).length := rfl
  refine (turnPage_first (s := onPage prog buf c) hs hin rfl (firstPage_size hbuf prog) hw).trans ?_
  have hidx : pcIndex (onPage prog buf c).chip = pcIndex c := rfl
  rw [hcmds, hidx, List.length_take]
  by_cases hend : prog.length ≤ pcIndex c
  · rw [if_pos (by omega), if_pos hend]
  · rw [if_neg (by omega), if_neg hend]

omit hbuf in
theorem current_onPage (hw : Within c buf.length) (hlt : pcIndex c < prog.length) :
    current (onPage prog buf c).chip = prog[pcIndex c]? :=
  firstPage_getElem hw.index.2.2 hlt

omit hbuf in
theorem dispatch_onPage {h : Host} {pcmd : Command} (hk : ¬ Rewrites (.ofCode pcmd.cmd))
    (hin : InRam c.ram regPc) (hcur : current (onPage prog buf c).chip = some pcmd) :
    dispatch h (onPage prog buf c) = (execute h c pcmd).map fun x => onPage prog buf x.1 := by
  have hload : load (onPage prog buf c).chip regPc = .ok (cell c.ram regPc) := load_ok hin
  have hdata : (onPage prog buf c).chip.data[((cell c.ram regPc).signExtend 64).toNat]? = some pcmd :=
    hcur
  have hset : (firstPage prog buf).data.set ((cell c.ram regPc).signExtend 64).toNat pcmd =
      (firstPage prog buf).data := by
    obtain ⟨hb, hv⟩ := List.getElem?_eq_some_iff.mp hdata
    rw [← hv]
    exact List.set_getElem_self hb
  simp only [dispatch, hload, Runs.ok_bind, hdata]
  rw [show (onPage prog buf c).chip = c.withPage (firstPage prog buf) from rfl, frame_execute hk]
  cases execute h c pcmd with
  | error e => rfl
  | ok x =>
    simp only [Runs.map_ok, Runs.ok_bind, Runs.pure_ok, onPage, Chip.withPage, hset]

/-- Inside the first page an iteration is one of the flat machine. -/
theorem turn_onPage {h : Host} (hk : ∀ pcmd ∈ prog, ¬ Rewrites (.ofCode pcmd.cmd))
    (hw : Within c buf.length) :
    turn h (onPage prog buf c) = (flatTurn h prog c).map (Runs.Outcome.map (onPage prog buf)) := by
  have hchip : (onPage prog buf c).chip = c.withPage (firstPage prog buf) := rfl
  by_cases hs : c.state = .running
  · by_cases hin : InRam c.ram regPc
    · have hidx : ((cell c.ram regPc).signExtend 64).toNat = pcIndex c := rfl
      simp only [turn, turnPage_onPage hbuf prog hs hin hw, flatTurn, hs, ne_eq, not_true_eq_false,
        if_false, load_ok hin, Runs.ok_bind, hidx]
      by_cases hend : prog.length ≤ pcIndex c
      · rw [if_pos hend, List.getElem?_eq_none hend]
        rfl
      · have hlt : pcIndex c < prog.length := by omega
        have hcur := current_onPage hw hlt
        rw [List.getElem?_eq_getElem hlt] at hcur
        rw [if_neg hend, List.getElem?_eq_getElem hlt]
        simp only [dispatch_onPage (h := h) (hk _ (List.getElem_mem hlt)) hin hcur]
        cases execute h c prog[pcIndex c] <;> rfl
    · have hfault : load c regPc = .error .ramBounds := if_neg hin
      simp only [turn, turnPage, flatTurn, hchip, withPage_state, load_withPage, hs, hfault, ne_eq,
        not_true_eq_false, if_false]
      rfl
  · simp only [turn, turnPage, flatTurn, hchip, withPage_state, hs, ne_eq, not_false_eq_true,
      if_true]
    rfl

/-- The start is the flat machine's, with the first page loaded. -/
theorem start_onPage (hp : prog.head?.map Command.cmd = some Opcode.initr.code) :
    start (ObjectFile.host (commandsSave prog) malloc un) (Chip.new buf) =
      (flatStart (ObjectFile.host (commandsSave prog) malloc un) prog).map
        (Runs.Outcome.map (onPage prog buf)) := by
  obtain ⟨first, rest, rfl⟩ : ∃ first rest, prog = first :: rest := by
    cases prog with
    | nil => exact absurd hp (by simp)
    | cons first rest => exact ⟨first, rest, rfl⟩
  have hcode : first.cmd = Opcode.initr.code := by simpa using hp
  have hload : (ObjectFile.host (commandsSave (first :: rest)) malloc un).dataLoad 0 buf =
      (Int.ofNat ((first :: rest).take buf.length).length, (firstPage (first :: rest) buf).data) :=
    pageLoad_commandsSave (first :: rest) 0 buf
  obtain ⟨l, hl⟩ : ∃ l, (firstPage (first :: rest) buf).data = first :: l := by
    obtain ⟨n, hn⟩ : ∃ n, buf.length = n + 1 := ⟨buf.length - 1, by omega⟩
    exact ⟨_, by rw [firstPage, hn, List.take_succ_cons]; rfl⟩
  have hframe := frame_initr (ObjectFile.host (commandsSave (first :: rest)) malloc un)
    (Chip.new []) (firstPage (first :: rest) buf) first
  have hpos : ¬ Int.ofNat ((first :: rest).take buf.length).length < 0 :=
    Int.not_lt.mpr (Int.natCast_nonneg _)
  have hdata : (Chip.new buf).data = buf := rfl
  simp only [start, flatStart, hdata, hload, hpos, if_false, hl, hcode, ne_eq, not_true_eq_false]
  rw [← hl]
  refine (congrArg (· >>= _) hframe).trans ?_
  cases cmdInitr (ObjectFile.host (commandsSave (first :: rest)) malloc un) (Chip.new []) first with
  | error e => rfl
  | ok x =>
    simp only [Runs.map_ok, Runs.ok_bind, withPage_state, ← hl]
    split <;> rfl

/-- The paged run is the flat one while the program counter stays inside the first page. -/
theorem run_onPage (malloc : Word → Option (Nat → Word)) (un : Unspecified) (hp : Runnable prog)
    (hw : ∀ i < k, ∀ d, flatRun (ObjectFile.host (commandsSave prog) malloc un) prog i =
      .ok (.next d) → Within d buf.length) :
    run (ObjectFile.host (commandsSave prog) malloc un) (Chip.new buf) k =
      (flatRun (ObjectFile.host (commandsSave prog) malloc un) prog k).map
        (Runs.Outcome.map (onPage prog buf)) := by
  simp only [run, flatRun, start_onPage hbuf hp.first] at hw ⊢
  cases hs : flatStart (ObjectFile.host (commandsSave prog) malloc un) prog with
  | error e => rfl
  | ok o =>
    cases o with
    | stop d => rfl
    | next d =>
      refine Runs.iterate_map _ (P := fun d => Within d buf.length)
        (fun d hd => turn_onPage hbuf hp.keeps hd) fun i hi u hu => hw i hi u ?_
      simpa [hs] using hu

/-- A dispatch outside the page is a fault, so every iteration that is finished is inside it. -/
theorem turn_within {h : Host} {u : Loop} (ht : turn h (onPage prog buf c) = .ok (.next u)) :
    Within c buf.length := by
  obtain ⟨t, htp, hd⟩ := turn_next ht
  obtain ⟨hram, _, hlen⟩ := turnPage_next htp
  obtain ⟨pcmd, hcur, _⟩ := dispatch_spec hd
  have hidx : pcIndex t.chip = pcIndex c := by
    rw [pcIndex, hram]
    rfl
  obtain ⟨hlt, _⟩ := List.getElem?_eq_some_iff.mp hcur
  rw [hidx, hlen, show (onPage prog buf c).chip.data = (firstPage prog buf).data from rfl,
    length_firstPage] at hlt
  have hnn : 0 ≤ (cell c.ram regPc).toInt := by
    apply nonneg_of_index
    exact Nat.lt_trans hlt hbuf.2
  refine ⟨hnn, ?_⟩
  rw [toNat_of_nonneg hnn, ← signExtend_toNat hnn]
  exact_mod_cast hlt

theorem reached_onPage (hp : Runnable prog) {s : Loop}
    (hr : run (ObjectFile.host (commandsSave prog) malloc un) (Chip.new buf) k = .ok (.next s)) :
    ∃ d, s = onPage prog buf d := by
  simp only [run, start_onPage hbuf hp.first] at hr
  cases hs : flatStart (ObjectFile.host (commandsSave prog) malloc un) prog with
  | error e => simp [hs] at hr
  | ok o =>
    rw [hs] at hr
    cases o with
    | stop d => simp [Runs.Outcome.map] at hr
    | next d =>
      refine Runs.iterate_invariant _ (P := fun _ => True) (I := fun s => ∃ d, s = onPage prog buf d)
        ?_ ⟨d, rfl⟩ (fun _ _ _ _ => trivial) hr
      rintro _ u ⟨d, rfl⟩ - ht
      rw [turn_onPage hbuf hp.keeps (turn_within hbuf ht)] at ht
      cases hf : flatTurn (ObjectFile.host (commandsSave prog) malloc un) prog d with
      | error e => simp [hf] at ht
      | ok o =>
        rw [hf] at ht
        cases o with
        | stop e => simp [Runs.Outcome.map] at ht
        | next e =>
          cases ht
          exact ⟨e, rfl⟩

/-- In an iteration the program's command is fetched from the page exactly when
the program counter is below the page size. -/
theorem flatFetch_iff {h : Host} (hs : c.state = .running) (hin : InRam c.ram regPc)
    (hw : Within c prog.length) :
    FlatFetch h prog (onPage prog buf c) ↔ (cell c.ram regPc).toInt < buf.length := by
  constructor
  · rintro ⟨t, ht, hlt, _⟩
    obtain ⟨hram, hsize, _⟩ := turnPage_next ht
    have hidx : pcIndex t.chip = pcIndex c := by
      rw [pcIndex, hram]
      rfl
    rw [hidx, hsize, show (onPage prog buf c).chip.pagesize = (firstPage prog buf).size from rfl,
      firstPage_size hbuf prog] at hlt
    have := hw.index.2.1
    omega
  · intro hlt
    have hpage : Within c buf.length := ⟨hw.1, hlt⟩
    obtain ⟨_, _, hidx⟩ := hpage.index
    obtain ⟨_, _, hend⟩ := hw.index
    have ht := turnPage_onPage hbuf prog (h := h) hs hin hpage
    rw [if_neg (by omega)] at ht
    have hcur := current_onPage hpage hend
    refine ⟨_, ht, ?_, ?_, hcur⟩
    · rw [show (onPage prog buf c).chip.pagesize = (firstPage prog buf).size from rfl,
        firstPage_size hbuf prog]
      exact hidx
    · rw [hcur, List.getElem?_eq_getElem hend]
      rfl

end Paging

/-- The RAM, and with it the PC cell, of a run's state. -/
def ramOf (r : Except Fault (Runs.Outcome Loop)) : Except Fault (Runs.Outcome (List Word)) :=
  r.map (Runs.Outcome.map fun s => s.chip.ram)

/-- A saved program runs as if it were not paged exactly while its program
counter is below the page size: in every iteration of every run the fetch is the
flat one if and only if it is, and as long as it is, the page size does not
matter to the states a run goes through. -/
theorem paged_iff (prog : List Command) (hp : Runnable prog)
    (malloc : Word → Option (Nat → Word)) (un : Unspecified) :
    (∀ buf : List Command, 1 ≤ buf.length ∧ buf.length < 2 ^ 32 → ∀ k s,
      run (ObjectFile.host (commandsSave prog) malloc un) (Chip.new buf) k = .ok (.next s) →
      s.chip.state = .running → InRam s.chip.ram regPc → Within s.chip prog.length →
      (FlatFetch (ObjectFile.host (commandsSave prog) malloc un) prog s ↔
        (cell s.chip.ram regPc).toInt < buf.length)) ∧
    ∀ buf₁ buf₂ : List Command, 1 ≤ buf₁.length ∧ buf₁.length < 2 ^ 32 →
      1 ≤ buf₂.length ∧ buf₂.length < 2 ^ 32 → ∀ k,
      (∀ i < k, ∀ s, run (ObjectFile.host (commandsSave prog) malloc un) (Chip.new buf₁) i =
        .ok (.next s) → Within s.chip (min buf₁.length buf₂.length)) →
      ramOf (run (ObjectFile.host (commandsSave prog) malloc un) (Chip.new buf₁) k) =
        ramOf (run (ObjectFile.host (commandsSave prog) malloc un) (Chip.new buf₂) k) := by
  refine ⟨fun buf hbuf k s hr hs hin hw => ?_, fun buf₁ buf₂ hbuf₁ hbuf₂ k hw => ?_⟩
  · obtain ⟨d, rfl⟩ := reached_onPage hbuf hp hr
    exact flatFetch_iff hbuf hs hin hw
  · -- by induction the flat run's states are the first run's, so they are inside both pages
    have hflat : ∀ i < k, ∀ d, flatRun (ObjectFile.host (commandsSave prog) malloc un) prog i =
        .ok (.next d) → Within d (min buf₁.length buf₂.length) := by
      intro i
      induction i using Nat.strongRecOn with
      | ind i ih =>
        intro hi d hd
        have hrun := run_onPage hbuf₁ malloc un hp (k := i)
          fun j hj e he => (ih j hj (by omega) e he).mono (by omega)
        rw [hd] at hrun
        exact hw i hi _ hrun
    have h₁ := run_onPage hbuf₁ malloc un hp
      fun i hi d hd => (hflat i hi d hd).mono (Nat.min_le_left ..)
    have h₂ := run_onPage hbuf₂ malloc un hp
      fun i hi d hd => (hflat i hi d hd).mono (Nat.min_le_right ..)
    rw [h₁, h₂]
    cases flatRun (ObjectFile.host (commandsSave prog) malloc un) prog k with
    | error e => rfl
    | ok o => cases o <;> rfl

/-- `initr 40` and two `nop`s. -/
def threeCommands : List Command := [⟨0, 0x30, 40, 0⟩, ⟨0, 0, 0, 0⟩, ⟨0, 0, 0, 0⟩]

def pagesOf (n : Nat) : List Command := List.replicate n ⟨0, 0, 0, 0⟩

def threeHost : Host :=
  ObjectFile.host (commandsSave threeCommands) (fun _ => some fun _ => 0) ⟨⟨0, 0, 0, 0⟩, true⟩

/-- The machine with pages of two commands as it comes to the third one. -/
def atThird : Loop :=
  onPage threeCommands (pagesOf 2) { Chip.new [] with
    ram := List.replicate 32 0 ++ [2, 39, 39] ++ List.replicate 5 0
    ramsize := 40 }

theorem threeCommands_runnable : Runnable threeCommands := ⟨by decide, by decide⟩

theorem atThird_reached : run threeHost (Chip.new (pagesOf 2)) 1 = .ok (.next atThird) :=
  Runs.ok_of_toOption (by decide +kernel)

theorem paged_iff_third :
    FlatFetch threeHost threeCommands atThird ↔ (cell atThird.chip.ram regPc).toInt < 2 :=
  (paged_iff threeCommands threeCommands_runnable _ _).1 (pagesOf 2) (by decide) 1 atThird
    atThird_reached (by decide) (by decide) (by decide)

/-- The third command is not fetched from the page, and pages of four do not have this run. -/
theorem thirdCommand_unpaged :
    (∃ k s, run threeHost (Chip.new (pagesOf 2)) k = .ok (.next s) ∧ s.chip.state = .running ∧
      InRam s.chip.ram regPc ∧ Within s.chip threeCommands.length ∧
      ¬ FlatFetch threeHost threeCommands s) ∧
    ramOf (run threeHost (Chip.new (pagesOf 2)) 2) ≠
      ramOf (run threeHost (Chip.new (pagesOf 4)) 2) := by
  refine ⟨⟨1, atThird, atThird_reached, by decide, by decide, by decide, fun hf => ?_⟩, fun he => ?_⟩
  · exact absurd ((flatFetch_iff (c := atThird.chip) (by decide) (by decide) (by decide)
      (by decide)).mp hf) (by decide)
  · have hnone : (ramOf (run threeHost (Chip.new (pagesOf 2)) 2)).toOption = none := by
      decide +kernel
    have hsome : (ramOf (run threeHost (Chip.new (pagesOf 4)) 2)).toOption.isSome := by
      decide +kernel
    rw [← he, hnone] at hsome
    cases hsome

end Vm
