import Chip32.VmEffects

/-!
# Where the PC may be

The loop looks at the PC through a signed remainder and an unsigned quotient, and
then indexes the page by the PC itself. It stays in the program exactly at the PCs
of the first page and at those that the two happen to stop it at.
-/
namespace Vm

open ObjectFile (commandsSave pageLoad pageLoad_count loaded_pageLoad)

/-- The same command, or a `logs` or `strcpy` that has moved its operands on. -/
def Moved (p q : Command) : Prop := q = p ∨ Rewrites (.ofCode p.cmd) ∧ ∃ n, q = shifted p n

/-- The page is one of the saved program, whose commands `R` relates to its entries. -/
structure OnFile (R : Command → Command → Prop) (prog : List Command) (n : Nat) (s : Loop) : Prop where
  pagesize : s.chip.pagesize = BitVec.ofNat 32 n
  length : s.chip.data.length = n
  ncmds : s.ncmds = min (n : Int) (max 0 (prog.length - s.chip.pagecurrent.toNat))
  entry : ∀ i < n, ∀ p, prog[s.chip.pagecurrent.toNat + i]? = some p →
    ∃ q, s.chip.data[i]? = some q ∧ R p q

/-- A dispatch keeps its entry related. -/
def Keeps (R : Command → Command → Prop) (t : Loop) : Prop :=
  ∀ pcmd n, current t.chip = some pcmd → (¬ Rewrites (.ofCode pcmd.cmd) → n = 0) →
    ∀ p, R p pcmd → R p (shifted pcmd n)

theorem keeps_moved (t : Loop) : Keeps Moved t := by
  intro pcmd n _ hzero p hp
  by_cases hw : Rewrites (.ofCode pcmd.cmd)
  · rcases hp with rfl | ⟨hw', m, rfl⟩
    · exact .inr ⟨hw, n, rfl⟩
    · exact .inr ⟨hw', m + n, shifted_shifted⟩
  · rw [hzero hw, shifted_zero]
    exact hp

theorem keeps_eq {t : Loop}
    (hq : ∀ pcmd, current t.chip = some pcmd → ¬ Rewrites (.ofCode pcmd.cmd)) : Keeps Eq t := by
  intro pcmd n hcur hzero p hp
  rw [hzero (hq pcmd hcur), shifted_zero]
  exact hp

section Page

variable {R : Command → Command → Prop} {prog buf : List Command}
  (malloc : Word → Option (Nat → Word)) (un : Unspecified) {n : Nat} {s t u : Loop}

theorem start_onFile (hrefl : ∀ p, R p p)
    (hs : start (ObjectFile.host (commandsSave prog) malloc un) (Chip.new buf) = .ok (.next s)) :
    OnFile R prog buf.length s := by
  obtain ⟨pcmd, rest, hdata, _, _, hn, _, hi⟩ := start_next hs
  obtain ⟨hpage, _⟩ := frame_initr.kept hi
  have hd : s.chip.data = (pageLoad (commandsSave prog) 0 buf).2 :=
    (congrArg Page.data hpage).trans hdata.symm
  have hload := loaded_pageLoad prog 0 buf
  have hcur : s.chip.pagecurrent = 0 := congrArg Page.current hpage
  constructor
  · exact congrArg Page.size hpage
  · rw [hd, hload.length]
  · rw [hn, hcur]
    exact pageLoad_count prog 0 buf
  · intro i hi p hp
    rw [hcur] at hp
    exact ⟨p, by rw [hd, hload.entry i hi p hp], hrefl p⟩

theorem OnFile.fetched (hrefl : ∀ p, R p p) (hf : OnFile R prog n s) :
    OnFile R prog n (fetched (ObjectFile.host (commandsSave prog) malloc un) s) := by
  unfold Vm.fetched
  split
  · exact hf
  · have hload := loaded_pageLoad prog (pageOf (cell s.chip.ram regPc) s.chip.pagesize) s.chip.data
    constructor
    · exact hf.pagesize
    · exact hload.length.trans hf.length
    · rw [← hf.length]
      exact pageLoad_count prog _ s.chip.data
    · intro i hi p hp
      exact ⟨p, hload.entry i (hf.length ▸ hi) p hp, hrefl p⟩

theorem OnFile.dispatch {h : Host} (hf : OnFile R prog n s) (hk : Keeps R s)
    (hd : dispatch h s = .ok u) : OnFile R prog n u := by
  obtain ⟨pcmd, d, q, hcur, he, rfl⟩ := dispatch_next hd
  obtain ⟨hpage, rfl⟩ := execute_frame he
  have hdata : d.data = s.chip.data := congrArg Page.data hpage
  have hpc : d.pagecurrent = s.chip.pagecurrent := congrArg Page.current hpage
  constructor
  · exact (congrArg Page.size hpage).trans hf.pagesize
  · rw [← hf.length, ← hdata]
    exact List.length_set
  · exact hf.ncmds.trans (by rw [hpc])
  · intro i hi p hp
    obtain ⟨e, he, hr⟩ := hf.entry i hi p (hpc ▸ hp)
    simp only [hdata]
    by_cases hidx : pcIndex s.chip = i
    · subst hidx
      obtain rfl : pcmd = e := Option.some.inj (hcur.symm.trans he)
      exact ⟨_, List.getElem?_set_self (hf.length ▸ hi), hk pcmd _ hcur words_eq_zero p hr⟩
    · exact ⟨e, by rw [List.getElem?_set_ne hidx, he], hr⟩

/-- Whatever page the loop is on, its entries are the program's. -/
theorem run_onFile {k : Nat} (hrefl : ∀ p, R p p)
    (hk : ∀ i < k, ∀ s t, run (ObjectFile.host (commandsSave prog) malloc un) (Chip.new buf) i =
      .ok (.next s) → turnPage (ObjectFile.host (commandsSave prog) malloc un) s = .ok (.next t) →
      Keeps R t)
    (hr : run (ObjectFile.host (commandsSave prog) malloc un) (Chip.new buf) k = .ok (.next s)) :
    OnFile R prog buf.length s := by
  refine reached_invariant (I := OnFile R prog buf.length) (P := fun s => ∀ t,
    turnPage (ObjectFile.host (commandsSave prog) malloc un) s = .ok (.next t) → Keeps R t)
    (fun s hs => start_onFile malloc un hrefl hs) (fun s u hf hp hu => ?_)
    (fun i hi s hs t ht => hk i hi s t hs ht) hr
  obtain ⟨t, ht, hd⟩ := turn_next hu
  obtain ⟨_, rfl, _⟩ := turnPage_next_iff.mp ht
  exact (hf.fetched malloc un hrefl).dispatch (hp _ ht) hd

end Page

/-- Outside the program the loop stops; a command that is dispatched is in the page
and, up to `R`, in the program. -/
structure Confined (h : Host) (R : Command → Command → Prop) (prog : List Command) (s : Loop) :
    Prop where
  stops : ¬ Within s.chip prog.length → ∃ t, turnPage h s = .ok (.stop t)
  inside : ∀ t, turnPage h s = .ok (.next t) → pcIndex t.chip < t.chip.pagesize.toNat ∧
    ∃ p ∈ prog, ∃ q, current t.chip = some q ∧ R p q

/-- A PC of the first page, or one at which quotient and remainder say that there is
no command: in 0.. their sum is behind the program, below 0 there is no remainder and
no command on the page that the truncated quotient names. -/
def Guarded (prog : List Command) (n : Nat) (pc : Word) : Prop :=
  0 ≤ pc.toInt ∧ pc.toInt < n ∨ 0 ≤ pc.toInt ∧ prog.length ≤ pc.toNat / n + pc.toNat % n ∨
    pc.toInt < 0 ∧ (n : Int) ∣ pc.toInt ∧ prog.length ≤ (pageOf pc (.ofNat 32 n)).toNat

section Index

variable {pc : Word} {n : Nat} (hn : 1 ≤ n ∧ n < 2 ^ 32)

include hn

theorem pageOf_nonneg (hpc : 0 ≤ pc.toInt) : (pageOf pc (.ofNat 32 n)).toNat = pc.toNat / n := by
  have hlt := pc.isLt
  have hle : pc.toNat / n ≤ pc.toNat := Nat.div_le_self ..
  rw [pageOf, BitVec.toNat_setWidth, BitVec.toNat_udiv, signExtend_toNat hpc,
    BitVec.toNat_setWidth_of_le (by omega), BitVec.toNat_ofNat, Nat.mod_eq_of_lt hn.2,
    Nat.mod_eq_of_lt (by omega)]

omit hn in
theorem tmod_nonneg (hpc : 0 ≤ pc.toInt) : pc.toInt.tmod n = (pc.toNat % n : Nat) := by
  rw [toNat_of_nonneg hpc, Int.tmod_eq_emod_of_nonneg (by omega)]
  rfl

omit hn in
/-- A remainder keeps the sign of the dividend. -/
theorem tmod_neg (hpc : pc.toInt < 0) : pc.toInt.tmod n < 0 ∨ pc.toInt.tmod n = 0 := by
  have hpos : 0 ≤ (-pc.toInt).tmod n := Int.tmod_nonneg _ (by omega)
  rw [Int.neg_tmod] at hpos
  omega

/-- The loop stops, or the PC is in the first page. -/
theorem guarded_iff (prog : List Command) :
    Guarded prog n pc ↔
      min (n : Int) (max 0 (prog.length - (pageOf pc (.ofNat 32 n)).toNat)) ≤ pc.toInt.tmod n ∨
        0 ≤ pc.toInt ∧ pc.toInt < n := by
  unfold Guarded
  by_cases hpc : 0 ≤ pc.toInt
  · have hlt : pc.toNat % n < n := Nat.mod_lt _ (by omega)
    rw [pageOf_nonneg hn hpc, tmod_nonneg hpc]
    omega
  · rw [Int.dvd_iff_tmod_eq_zero]
    have hsign : pc.toInt.tmod n < 0 ∨ pc.toInt.tmod n = 0 := tmod_neg (by omega)
    omega

end Index

section Confined

variable {R : Command → Command → Prop} {prog : List Command}
  (malloc : Word → Option (Nat → Word)) (un : Unspecified) {n : Nat} {s : Loop}
  (hn : 1 ≤ n ∧ n < 2 ^ 32)

include hn

theorem OnFile.pagesize_toNat (hf : OnFile R prog n s) : s.chip.pagesize.toNat = n := by
  rw [hf.pagesize, BitVec.toNat_ofNat, Nat.mod_eq_of_lt hn.2]

omit hn in
theorem OnFile.current_fetched {h : Host} (hf : OnFile R prog n s) :
    (Vm.fetched h s).chip.pagecurrent = pageOf (cell s.chip.ram regPc) (.ofNat 32 n) := by
  rw [← hf.pagesize]
  unfold Vm.fetched
  split
  · next hno => exact hno.symm
  · rfl

/-- The page of its PC stops the loop at a PC behind the commands on it. -/
theorem OnFile.turnPage (hrefl : ∀ p, R p p) (hf : OnFile R prog n s) (hm : HasMemory s.chip)
    (hs : s.chip.state = .running) :
    turnPage (ObjectFile.host (commandsSave prog) malloc un) s = .ok
      (if min (n : Int) (max 0 (prog.length - (pageOf (cell s.chip.ram regPc) (.ofNat 32 n)).toNat)) ≤
          (cell s.chip.ram regPc).toInt.tmod n
        then .stop (Vm.fetched (ObjectFile.host (commandsSave prog) malloc un) s)
        else .next (Vm.fetched (ObjectFile.host (commandsSave prog) malloc un) s)) := by
  have hsize := hf.pagesize_toNat hn
  have hz : s.chip.pagesize ≠ 0 := by
    intro hz
    rw [hz] at hsize
    simp at hsize
    omega
  have hcount := (hf.fetched malloc un hrefl).ncmds
  rw [hf.current_fetched] at hcount
  rw [turnPage_running hs (hm.inRam (by decide)) hz, hcount, hsize]
  congr 1
  refine if_congr (or_iff_right ?_) rfl rfl
  rintro ⟨hneg, _⟩
  omega

/-- On the page of its PC the loop is confined where it stops, and in the first page. -/
theorem OnFile.confined_guarded (hrefl : ∀ p, R p p) (hf : OnFile R prog n s) (hm : HasMemory s.chip)
    (hs : s.chip.state = .running) :
    Confined (ObjectFile.host (commandsSave prog) malloc un) R prog s ↔
      Guarded prog n (cell s.chip.ram regPc) := by
  have hturn := hf.turnPage malloc un hn hrefl hm hs
  rw [guarded_iff hn prog]
  split at hturn
  · next hstop =>
    refine iff_of_true ⟨fun _ => ⟨_, hturn⟩, fun t ht => ?_⟩ (.inl hstop)
    rw [hturn] at ht
    cases ht
  · next hgo =>
    obtain ⟨hram, hsize, _⟩ := fetched_chip (h := ObjectFile.host (commandsSave prog) malloc un)
      (s := s)
    have hidx : pcIndex (Vm.fetched (ObjectFile.host (commandsSave prog) malloc un) s).chip =
        pcIndex s.chip := by rw [pcIndex, hram, pcIndex]
    rw [or_iff_right hgo]
    constructor
    · intro hc
      have hlt := (hc.inside _ hturn).1
      rw [hidx, hsize, hf.pagesize_toNat hn] at hlt
      have hnn : 0 ≤ (cell s.chip.ram regPc).toInt := nonneg_of_index (Nat.lt_trans hlt hn.2)
      rw [pcIndex, signExtend_toNat hnn] at hlt
      exact ⟨hnn, by rw [toNat_of_nonneg hnn]; exact_mod_cast hlt⟩
    · intro hw
      obtain ⟨hpc, _, hlt⟩ := Within.index (c := s.chip) hw
      have hpage : pageOf (cell s.chip.ram regPc) (.ofNat 32 n) = 0 := by
        apply pageOf_of_lt
        rw [signExtend_toNat hw.1, BitVec.toNat_ofNat, Nat.mod_eq_of_lt hn.2, ← hpc]
        exact hlt
      -- the first page has the PC's command, since the loop goes on
      have hend : pcIndex s.chip < prog.length := by
        rw [hpage, tmod_nonneg hw.1, ← hpc, Nat.mod_eq_of_lt hlt] at hgo
        have hzero : (0 : Word).toNat = 0 := rfl
        omega
      refine ⟨fun hout => absurd ?_ hout, fun t ht => ?_⟩
      · exact ⟨hw.1, by rw [toNat_of_nonneg hw.1, ← hpc]; exact_mod_cast hend⟩
      · rw [hturn] at ht
        cases ht
        refine ⟨by rw [hidx, hsize, hf.pagesize_toNat hn]; exact hlt, _, List.getElem_mem hend, ?_⟩
        obtain ⟨q, hq, hr⟩ := (hf.fetched malloc un hrefl).entry _ hlt
          prog[pcIndex s.chip] (by
            rw [hf.current_fetched, hpage]
            simp)
        exact ⟨q, by rw [current, hidx]; exact hq, hr⟩

end Confined

/-- In a run no `logs` and no `strcpy` is dispatched before iteration `k`. -/
def Plain (h : Host) (c : Chip) (k : Nat) : Prop :=
  ∀ i < k, ∀ s t pcmd, run h c i = .ok (.next s) → turnPage h s = .ok (.next t) →
    current t.chip = some pcmd → ¬ Rewrites (.ofCode pcmd.cmd)

/-- `chip32_run` stays in a saved program exactly at the guarded PCs: at each iteration
of each run it stops outside the program and dispatches a command of it from inside the
page if and only if the PC is guarded. The command is the program's own, unless a `logs`
or a `strcpy` has moved its operands on. -/
theorem confined_iff (prog buf : List Command) (malloc : Word → Option (Nat → Word)) (un : Unspecified)
    (hbuf : 1 ≤ buf.length ∧ buf.length < 2 ^ 32) (k : Nat) (s : Loop)
    (hr : run (ObjectFile.host (commandsSave prog) malloc un) (Chip.new buf) k = .ok (.next s))
    (hs : s.chip.state = .running) :
    (Confined (ObjectFile.host (commandsSave prog) malloc un) Moved prog s ↔
      Guarded prog buf.length (cell s.chip.ram regPc)) ∧
    (Plain (ObjectFile.host (commandsSave prog) malloc un) (Chip.new buf) k →
      (Confined (ObjectFile.host (commandsSave prog) malloc un) Eq prog s ↔
        Guarded prog buf.length (cell s.chip.ram regPc))) := by
  refine ⟨?_, fun hplain => ?_⟩
  · have hf : OnFile Moved prog buf.length s :=
      run_onFile malloc un (fun _ => .inl rfl) (fun _ _ _ t _ _ => keeps_moved t) hr
    exact hf.confined_guarded malloc un hbuf (fun _ => .inl rfl) (run_memory hr) hs
  · have hf : OnFile Eq prog buf.length s :=
      run_onFile malloc un (fun _ => rfl) (fun i hi u t hu ht => keeps_eq fun pcmd hcur =>
        hplain i hi u t pcmd hu ht hcur) hr
    exact hf.confined_guarded malloc un hbuf (fun _ => rfl) (run_memory hr) hs

/-- `initr 40` and `jmp -1`. -/
def jumpBefore : List Command := [⟨0, 0x30, 40, 0⟩, ⟨0, 0x20, -1, 0⟩]

def jumpHost : Host :=
  ObjectFile.host (commandsSave jumpBefore) (fun _ => some fun _ => 0) ⟨⟨0, 0, 0, 0⟩, true⟩

/-- The machine behind the jump. -/
def jumped : Loop where
  chip :=
    { Chip.new jumpBefore with
      ram := List.replicate 32 0 ++ [-1, 39, 39] ++ List.replicate 5 0
      ramsize := 40 }
  ncmds := 2

theorem jumped_reached : run jumpHost (Chip.new (List.replicate 2 ⟨0, 0, 0, 0⟩)) 1 =
    .ok (.next jumped) :=
  Runs.ok_of_toOption (by decide +kernel)

/-- The next iteration goes on to a dispatch. -/
theorem jumped_goes_on : turnPage jumpHost jumped = .ok (.next (fetched jumpHost jumped)) :=
  Runs.ok_of_toOption (by decide +kernel)

theorem confined_iff_jumped :
    Confined jumpHost Moved jumpBefore jumped ↔ Guarded jumpBefore 2 (cell jumped.chip.ram regPc) :=
  (confined_iff jumpBefore (List.replicate 2 ⟨0, 0, 0, 0⟩) _ _ (by decide) 1 jumped jumped_reached
    (by decide)).1

/-- At the PC -1 the loop does not stop. -/
theorem jumpBefore_unconfined : ∃ k s,
    run jumpHost (Chip.new (List.replicate 2 ⟨0, 0, 0, 0⟩)) k = .ok (.next s) ∧
      s.chip.state = .running ∧ ¬ Within s.chip jumpBefore.length ∧
      ¬ (∃ t, turnPage jumpHost s = .ok (.stop t)) ∧ ¬ Confined jumpHost Moved jumpBefore s := by
  have hno : ¬ ∃ t, turnPage jumpHost jumped = .ok (.stop t) := by
    rintro ⟨t, ht⟩
    rw [jumped_goes_on] at ht
    cases ht
  have hout : ¬ Within jumped.chip jumpBefore.length := by decide
  exact ⟨1, jumped, jumped_reached, by decide, hout, hno, fun hc => hno (hc.stops hout)⟩

end Vm
