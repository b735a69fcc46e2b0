import Chip32.VmAccess
import Chip32.VmStrcpy

/-!
# What fresh memory holds

`initr` does not clear the memory `malloc` gives it. A run each command of which reads
only registers and cells that were written before does not depend on what was there:
with any other fresh memory it prints, returns and faults the same.
-/
namespace Vm

open Runs (Pairs Outcomes pairs_pure pairs_bind pairs_error)

/-- The same host with another `malloc`. -/
def Host.withMalloc (h : Host) (malloc : Word → Option (Nat → Word)) : Host :=
  { h with malloc := malloc }

def Loop.withRam (s : Loop) (ram : List Word) : Loop := ⟨{ s.chip with ram := ram }, s.ncmds⟩

/-- A command that is about to be executed in iteration `i`. -/
structure Dispatches (h : Host) (c : Chip) (i : Nat) (t : Loop) (pcmd : Command) : Prop where
  reached : ∃ s, run h c i = .ok (.next s) ∧ turnPage h s = .ok (.next t)
  current : current t.chip = some pcmd

/-- The registers, and the cells written in the first `k` iterations. -/
def Written (h : Host) (c : Chip) (k : Nat) (x : Word) : Prop :=
  x ∈ registers ∨ ∃ i < k, ∃ t pcmd, Dispatches h c i t pcmd ∧ x ∈ writes h t.chip pcmd

/-- No command reads a cell that was not written before it. -/
def ReadsWritten (h : Host) (c : Chip) (k : Nat) : Prop :=
  ∀ i < k, ∀ t pcmd, Dispatches h c i t pcmd → ∀ x ∈ reads h t.chip pcmd, Written h c i x

/-- The same machine but for its RAM, which is the same on `W`. -/
structure Seen (W : Word → Prop) (s t : Loop) : Prop where
  same : ∃ ram, t = s.withRam ram
  length : t.chip.ram.length = s.chip.ram.length
  agree : ∀ x, W x → cell t.chip.ram x = cell s.chip.ram x

section Hosts

variable {h : Host} {malloc : Word → Option (Nat → Word)} {c : Chip} {pcmd : Command}

theorem logsLoop_withMalloc (k : Nat) :
    logsLoop (h.withMalloc malloc) k c pcmd = logsLoop h k c pcmd := by
  induction k generalizing c pcmd with
  | zero => rfl
  | succ k ih =>
    simp only [logsLoop, ih]
    rfl

theorem strcpyLoop_withMalloc (k : Nat) :
    strcpyLoop (h.withMalloc malloc) k c pcmd = strcpyLoop h k c pcmd := by
  induction k generalizing c pcmd with
  | zero => rfl
  | succ k ih =>
    simp only [strcpyLoop, ih]
    rfl

/-- Only the first `initr` allocates. -/
theorem execute_withMalloc (hram : c.ram ≠ []) :
    execute (h.withMalloc malloc) c pcmd = execute h c pcmd := by
  have hcmd : ∀ op, commands op (h.withMalloc malloc) c pcmd = commands op h c pcmd := by
    intro op
    cases op with
    | initr =>
      simp only [commands, cmdInitr, ne_eq, hram, not_false_eq_true, if_true]
    | logs => exact logsLoop_withMalloc _
    | strcpy => exact strcpyLoop_withMalloc _
    | _ => rfl
  rw [execute, execute, hcmd]

end Hosts

section Turns

variable {h : Host} {malloc : Word → Option (Nat → Word)} {c : Chip} {s t u : Loop} {pcmd : Command}
  {W : Word → Prop}

theorem Seen.mono {V : Word → Prop} (hs : Seen W s t) (hv : ∀ x, V x → W x) : Seen V s t :=
  ⟨hs.same, hs.length, fun x hx => hs.agree x (hv x hx)⟩

theorem fetched_withRam {ram : List Word} (hpc : cell ram regPc = cell s.chip.ram regPc) :
    fetched (h.withMalloc malloc) (s.withRam ram) = (fetched h s).withRam ram := by
  have hstill : NoReload (s.withRam ram).chip ↔ NoReload s.chip := by
    unfold NoReload
    simp only [Loop.withRam, hpc]
  by_cases hn : NoReload s.chip
  · rw [fetched, fetched, if_pos hn, if_pos (hstill.mpr hn)]
  · rw [fetched, fetched, if_neg hn, if_neg (mt hstill.mp hn)]
    simp only [Loop.withRam, hpc]
    rfl

theorem turnPage_halted (hs : s.chip.state ≠ .running) : turnPage h s = .ok (.stop s) := if_pos hs

theorem turnPage_out (hs : s.chip.state = .running) (hin : ¬ InRam s.chip.ram regPc) :
    turnPage h s = .error .ramBounds := by
  rw [turnPage, if_neg (not_not.mpr hs), load_out hin, Runs.error_bind]

theorem turnPage_pageless (hs : s.chip.state = .running) (hin : InRam s.chip.ram regPc)
    (hz : s.chip.pagesize = 0) : turnPage h s = .error .division := by
  rw [turnPage, if_neg (not_not.mpr hs), load_ok hin, Runs.ok_bind, if_pos hz]

/-- An iteration up to its dispatch looks at no cell but the PC. -/
theorem turnPage_seen (hs : Seen W s t) (hpc : W regPc) :
    Pairs (Outcomes (Seen W) (Seen W)) (turnPage h s) (turnPage (h.withMalloc malloc) t) := by
  obtain ⟨⟨ram, rfl⟩, hlen, hagree⟩ := hs
  have hin' : InRam (s.withRam ram).chip.ram regPc ↔ InRam s.chip.ram regPc := by
    rw [InRam, InRam, hlen]
  by_cases hrunning : s.chip.state = .running
  · by_cases hin : InRam s.chip.ram regPc
    · by_cases hz : s.chip.pagesize = 0
      · rw [turnPage_pageless hrunning hin hz,
          turnPage_pageless (s := s.withRam ram) hrunning (hin'.mpr hin) hz]
        exact pairs_error _
      · have hcell : cell (s.withRam ram).chip.ram regPc = cell s.chip.ram regPc := hagree _ hpc
        have hstill : NoReload (s.withRam ram).chip ↔ NoReload s.chip := by
          unfold NoReload
          rw [hcell]
          exact Iff.rfl
        have hfetched : Seen W (fetched h s) ((fetched h s).withRam ram) := by
          have hram := (fetched_chip (h := h) (s := s)).1
          refine ⟨⟨ram, rfl⟩, ?_, ?_⟩
          · rw [hram]
            exact hlen
          · rw [hram]
            exact hagree
        rw [turnPage_running hrunning hin hz,
          turnPage_running (s := s.withRam ram) hrunning (hin'.mpr hin) hz,
          @fetched_withRam h malloc s ram hcell, hcell]
        simp only [hstill]
        change Pairs _ _ (.ok (if (fetched h s).ncmds < 0 ∧ ¬ NoReload s.chip ∨ (fetched h s).ncmds ≤
          (cell s.chip.ram regPc).toInt.tmod s.chip.pagesize.toNat then _ else _))
        split <;> exact hfetched
    · rw [turnPage_out hrunning hin, turnPage_out (s := s.withRam ram) hrunning (mt hin'.mp hin)]
      exact pairs_error _
  · rw [turnPage_halted hrunning, turnPage_halted (s := s.withRam ram) hrunning]
    exact ⟨⟨ram, rfl⟩, hlen, hagree⟩

/-- A dispatch that reads nothing but `W`. -/
theorem dispatch_seen (hs : Seen W s t) (hram : s.chip.ram ≠ []) (hpc : W regPc)
    (hk : ∀ pcmd, current s.chip = some pcmd → ∀ x ∈ reads h s.chip pcmd, W x) :
    Pairs (fun u v => ∀ pcmd, current s.chip = some pcmd →
        Seen (fun x => W x ∨ x ∈ writes h s.chip pcmd) u v)
      (dispatch h s) (dispatch (h.withMalloc malloc) t) := by
  obtain ⟨⟨ram, rfl⟩, hlen, hagree⟩ := hs
  have hb : Beside s.chip W [] s.chip (s.withRam ram).chip :=
    beside_start ⟨ram, rfl⟩ hlen hagree
  refine pairs_bind (hb.load (.inl hpc)) fun pc hload => ?_
  obtain ⟨_, rfl⟩ := load_eq_ok.mp hload
  have hdata : (s.withRam ram).chip.data = s.chip.data := rfl
  have hget : s.chip.data[((cell s.chip.ram regPc).signExtend 64).toNat]? = current s.chip := rfl
  rw [hdata, hget]
  cases hcur : current s.chip with
  | none => exact pairs_error _
  | some pcmd =>
    have hram' : (s.withRam ram).chip.ram ≠ [] := by
      intro hnil
      rw [hnil] at hlen
      exact hram (List.length_eq_zero_iff.mp hlen.symm)
    simp only [execute_withMalloc hram']
    refine (execute_beside hb hram (hk pcmd hcur)).bind fun x y hxy => ?_
    obtain ⟨a, q⟩ := x
    obtain ⟨b, _⟩ := y
    obtain ⟨rfl, hab⟩ := hxy
    have hab : Beside s.chip W (writes h s.chip pcmd) a b := hab
    obtain ⟨⟨ram', rfl⟩, hlen', _, _, hagree'⟩ := hab
    refine pairs_pure fun pcmd' hcur' => ?_
    cases hcur'
    exact ⟨⟨ram', rfl⟩, hlen', hagree'⟩

/-- The state in which the run comes to its `k`-th iteration. -/
def Reached (h : Host) (c : Chip) (k : Nat) (s t : Loop) : Prop :=
  run h c k = .ok (.next s) ∧ Seen (Written h c k) s t

theorem Dispatches.unique {i : Nat} {u : Loop} {q : Command} (hd : Dispatches h c i t pcmd)
    (hd' : Dispatches h c i u q) : u = t ∧ q = pcmd := by
  obtain ⟨⟨s, hs, ht⟩, hcur⟩ := hd
  obtain ⟨⟨s', hs', ht'⟩, hcur'⟩ := hd'
  cases hs.symm.trans hs'
  cases ht.symm.trans ht'
  cases hcur.symm.trans hcur'
  exact ⟨rfl, rfl⟩

theorem written_succ {i : Nat} {x : Word} (hd : Dispatches h c i t pcmd) :
    Written h c (i + 1) x ↔ Written h c i x ∨ x ∈ writes h t.chip pcmd := by
  constructor
  · rintro (hreg | ⟨j, hj, u, q, hd', hx⟩)
    · exact .inl (.inl hreg)
    · rcases Nat.lt_succ_iff_lt_or_eq.mp hj with hj | rfl
      · exact .inl (.inr ⟨j, hj, u, q, hd', hx⟩)
      · obtain ⟨rfl, rfl⟩ := hd.unique hd'
        exact .inr hx
  · rintro ((hreg | ⟨j, hj, u, q, hd', hx⟩) | hx)
    · exact .inl hreg
    · exact .inr ⟨j, Nat.lt_succ_of_lt hj, u, q, hd', hx⟩
    · exact .inr ⟨i, Nat.lt_succ_self i, t, pcmd, hd, hx⟩

/-- Once the loop has been left no cell is written. -/
theorem written_ended {m k : Nat} {x : Word} (hr : run h c m = .ok (.stop u)) (hx : Written h c k x) :
    Written h c m x := by
  rcases hx with hreg | ⟨j, _, t, pcmd, hd, hx⟩
  · exact .inl hreg
  · refine .inr ⟨j, ?_, t, pcmd, hd, hx⟩
    by_contra hle
    obtain ⟨⟨s, hs, _⟩, _⟩ := hd
    cases (run_ended hr (fun _ => nofun) (Nat.not_lt.mp hle)).symm.trans hs

theorem written_left {i : Nat} {x : Word} (hr : run h c i = .ok (.next s))
    (ht : turnPage h s = .ok (.stop u)) (hx : Written h c (i + 1) x) : Written h c i x := by
  rcases hx with hreg | ⟨j, hj, t, pcmd, hd, hx⟩
  · exact .inl hreg
  · rcases Nat.lt_succ_iff_lt_or_eq.mp hj with hj | rfl
    · exact .inr ⟨j, hj, t, pcmd, hd, hx⟩
    · obtain ⟨⟨s', hs', ht'⟩, _⟩ := hd
      cases hr.symm.trans hs'
      cases ht.symm.trans ht'

/-- The machines in which the run ends, alike on all that it has written. -/
def Ended (h : Host) (c : Chip) (s t : Loop) : Prop := ∀ k, Seen (Written h c k) s t

theorem turn_seen {buf : List Command} {i : Nat} (hk : ReadsWritten h (.new buf) (i + 1))
    (hs : Reached h (.new buf) i s t) :
    Pairs (Outcomes (Reached h (.new buf) (i + 1)) (Ended h (.new buf))) (turn h s)
      (turn (h.withMalloc malloc) t) := by
  obtain ⟨hrun, hst⟩ := hs
  have hpc : Written h (.new buf) i regPc := .inl (by decide)
  refine (turnPage_seen hst hpc).left.bind fun o o' ho => ?_
  obtain ⟨hturn, ho⟩ := ho
  cases o with
  | stop u =>
    cases o' with
    | next v => exact ho.elim
    | stop v =>
      have hrun' : run h (.new buf) (i + 1) = .ok (.stop u) := by
        rw [run_succ hrun, turn, hturn]
        rfl
      exact fun k => Seen.mono ho fun x hx => written_left hrun hturn (written_ended hrun' hx)
  | next u =>
    cases o' with
    | stop v => exact ho.elim
    | next v =>
      have hdisp : ∀ pcmd, current u.chip = some pcmd → Dispatches h (.new buf) i u pcmd :=
        fun pcmd hcur => ⟨⟨s, hrun, hturn⟩, hcur⟩
      have hram : u.chip.ram ≠ [] := ((run_memory hrun).turnPage hturn).ne_nil
      refine (dispatch_seen ho hram hpc fun pcmd hcur =>
        hk i (Nat.lt_succ_self i) u pcmd (hdisp pcmd hcur)).left.bind fun u' v' huv => ?_
      obtain ⟨hdone, huv⟩ := huv
      obtain ⟨pcmd, _, _, hcur, _, _⟩ := dispatch_next hdone
      have hrun' : run h (.new buf) (i + 1) = .ok (.next u') := by
        rw [run_succ hrun, turn, hturn, Runs.ok_bind]
        simp only [hdone, Runs.ok_bind, Runs.pure_ok]
      exact ⟨hrun', (huv pcmd hcur).mono fun x hx => (written_succ (hdisp pcmd hcur)).mp hx⟩

/-- The registers are set in memory of which nothing is known. -/
theorem initRegisters_beside {a b : Chip} (hb : Beside a (fun _ => False) [] a b) :
    Pairs (Beside a (fun _ => False) [regFrm, regStk, regPc]) (initRegisters a) (initRegisters b) := by
  rw [initRegisters, initRegisters]
  refine hb.store.left.bind fun a₁ b₁ h₁ => ?_
  obtain ⟨hst, hb₁⟩ := h₁
  obtain ⟨_, rfl⟩ := store_eq_ok.mp hst
  have hsize₁ : b₁.ramsize = a.ramsize := by
    obtain ⟨ram, rfl⟩ := hb₁.same
    rfl
  rw [hsize₁]
  refine hb₁.store.left.bind fun a₂ b₂ h₂ => ?_
  obtain ⟨hst, hb₂⟩ := h₂
  obtain ⟨_, rfl⟩ := store_eq_ok.mp hst
  have hsize₂ : b₂.ramsize = a.ramsize := by
    obtain ⟨ram, rfl⟩ := hb₂.same
    rfl
  rw [hsize₂]
  exact hb₂.store

theorem initr_seen (hsame : ∀ size, (malloc size).isSome = (h.malloc size).isSome)
    (hram : c.ram = []) :
    Pairs (fun x y => y.2 = x.2 ∧ Beside x.1 (· ∈ registers) [] x.1 y.1) (cmdInitr h c pcmd)
      (cmdInitr (h.withMalloc malloc) c pcmd) := by
  have hself : ∀ d : Chip, Beside d (· ∈ registers) [] d d := fun d =>
    beside_start ⟨d.ram, rfl⟩ rfl fun _ _ => rfl
  have hmalloc : (h.withMalloc malloc).malloc = malloc := rfl
  simp only [cmdInitr, hram, ne_eq, not_true_eq_false, if_false, hmalloc]
  by_cases hz : pcmd.arg0 = 0
  · simp only [hz, if_true]
    exact pairs_pure ⟨rfl, hself _⟩
  · simp only [hz, if_false]
    have hsize := hsame pcmd.arg0
    cases hm : h.malloc pcmd.arg0 with
    | none =>
      rw [hm] at hsize
      have hnone : malloc pcmd.arg0 = none := by simpa using hsize
      rw [hnone]
      exact pairs_pure ⟨rfl, hself _⟩
    | some words =>
      rw [hm] at hsize
      obtain ⟨words', hm'⟩ := Option.isSome_iff_exists.mp hsize
      rw [hm']
      refine (initRegisters_beside (beside_start ⟨_, rfl⟩ (by simp) fun _ hx => hx.elim)).bind fun a b hab => ?_
      refine pairs_pure ⟨rfl, beside_start hab.same hab.length fun x hx => hab.agree x (.inr ?_)⟩
      simp only [registers, List.mem_cons, List.not_mem_nil, or_false] at hx ⊢
      tauto

/-- `chip32_run` before its loop: memory that is allocated is fresh but for the registers. -/
theorem start_seen {buf : List Command}
    (hsame : ∀ size, (malloc size).isSome = (h.malloc size).isSome) :
    Pairs (Outcomes (Reached h (.new buf) 0) (Ended h (.new buf))) (start h (.new buf))
      (start (h.withMalloc malloc) (.new buf)) := by
  have hself : ∀ s : Loop, Seen (· ∈ registers) s s := fun s => ⟨⟨s.chip.ram, rfl⟩, rfl, fun _ _ => rfl⟩
  have hload : (h.withMalloc malloc).dataLoad = h.dataLoad := rfl
  have hgo : Pairs (Outcomes (Seen (· ∈ registers)) (Seen (· ∈ registers))) (start h (.new buf))
      (start (h.withMalloc malloc) (.new buf)) := by
    by_cases hneg : (h.dataLoad 0 (Chip.new buf).data).1 < 0
    · simp only [start, hload, hneg, if_true]
      exact hself _
    · simp only [start, hload, hneg, if_false]
      cases hdata : (h.dataLoad 0 (Chip.new buf).data).2 with
      | nil => exact pairs_error _
      | cons pcmd rest =>
        by_cases hcode : pcmd.cmd = Opcode.initr.code
        · simp only [hcode, ne_eq, not_true_eq_false, if_false]
          refine (initr_seen hsame rfl).bind fun x y hxy => ?_
          obtain ⟨a, _⟩ := x
          obtain ⟨b, q⟩ := y
          obtain ⟨rfl, hab⟩ := hxy
          have hab : Beside a (· ∈ registers) [] a b := hab
          obtain ⟨⟨ram, rfl⟩, hlen, _, _, hagree⟩ := hab
          have hseen : ∀ n, Seen (· ∈ registers) ⟨{ a with data := q :: rest }, n⟩
              ⟨{ a with ram := ram, data := q :: rest }, n⟩ := fun n =>
            ⟨⟨ram, rfl⟩, hlen, fun z hz => hagree z (.inl hz)⟩
          by_cases hfail : a.state = .fail
          · simp only [if_pos hfail]
            exact hseen _
          · simp only [if_neg hfail]
            exact hseen _
        · simp only [hcode, ne_eq, not_false_eq_true, if_true]
          exact hself _
  have hfirst : ∀ x, Written h (.new buf) 0 x → x ∈ registers := fun x hx =>
    hx.resolve_right (by simp)
  refine hgo.left.mono fun o o' ho => ?_
  obtain ⟨hstart, ho⟩ := ho
  have hrun : run h (.new buf) 0 = .ok o := by
    rw [run, hstart, Runs.ok_bind]
    cases o <;> rfl
  cases o with
  | stop s =>
    cases o' with
    | next t => exact ho.elim
    | stop t => exact fun k => Seen.mono ho fun x hx => hfirst x (written_ended hrun hx)
  | next s =>
    cases o' with
    | stop t => exact ho.elim
    | next t => exact ⟨hrun, Seen.mono ho hfirst⟩

/-- A run that reads only what was written before, and the registers, is the same with
any fresh memory, whether it goes on or has ended: what it prints, its state and what it
FAILs or faults at, and RAM on the cells it has written. -/
theorem fresh_unseen (h : Host) (malloc : Word → Option (Nat → Word)) (buf : List Command) (k : Nat)
    (hsame : ∀ size, (malloc size).isSome = (h.malloc size).isSome)
    (hk : ReadsWritten h (.new buf) k) :
    Pairs (Outcomes (Seen (Written h (.new buf) k)) (Seen (Written h (.new buf) k)))
      (run h (.new buf) k) (run (h.withMalloc malloc) (.new buf) k) := by
  rw [run, run]
  refine (start_seen hsame).bind fun o o' ho => ?_
  cases o with
  | stop s =>
    cases o' with
    | next t => exact ho.elim
    | stop t => exact ho k
  | next s =>
    cases o' with
    | stop t => exact ho.elim
    | next t =>
      refine (Runs.iterate_pairs (R := Reached h (.new buf)) ho fun i hi s t hs =>
        turn_seen (fun j hj => hk j (by omega)) hs).mono fun o o' ho => ?_
      cases o with
      | stop u =>
        cases o' with
        | next v => exact ho.elim
        | stop v => exact ho k
      | next u =>
        cases o' with
        | stop v => exact ho.elim
        | next v => exact ho.2

end Turns

/-- `initr 40`, `move $35, 7`, `logi $35`. -/
def logSeven : List Command := [⟨0, 0x30, 40, 0⟩, ⟨1, 0x01, 35, 7⟩, ⟨1, 0x40, 35, 0⟩]

/-- Memory comes zeroed. -/
def zeroHost : Host :=
  ObjectFile.host (ObjectFile.commandsSave logSeven) (fun _ => some fun _ => 0) ⟨⟨0, 0, 0, 0⟩, true⟩

/-- The machine as the loop reaches `pc` with `v` in cell 35. -/
def sevenState (pc v : Word) : Loop where
  chip :=
    { Chip.new logSeven with
      ram := List.replicate 32 0 ++ [pc, 39, 39, v] ++ List.replicate 4 0
      ramsize := 40 }
  ncmds := 3

theorem seven_reached : run zeroHost (.new logSeven) 0 = .ok (.next (sevenState 1 0)) ∧
    run zeroHost (.new logSeven) 1 = .ok (.next (sevenState 2 7)) :=
  ⟨Runs.ok_of_toOption (by decide +kernel), Runs.ok_of_toOption (by decide +kernel)⟩

theorem seven_pages : turnPage zeroHost (sevenState 1 0) = .ok (.next (sevenState 1 0)) ∧
    turnPage zeroHost (sevenState 2 7) = .ok (.next (sevenState 2 7)) :=
  ⟨Runs.ok_of_toOption (by decide +kernel), Runs.ok_of_toOption (by decide +kernel)⟩

theorem seven_readsWritten : ReadsWritten zeroHost (.new logSeven) 2 := by
  obtain ⟨hrun₀, hrun₁⟩ := seven_reached
  obtain ⟨hpage₀, hpage₁⟩ := seven_pages
  have hfirst : Dispatches zeroHost (.new logSeven) 0 (sevenState 1 0) ⟨1, 0x01, 35, 7⟩ :=
    ⟨⟨_, hrun₀, hpage₀⟩, by decide +kernel⟩
  have hsecond : Dispatches zeroHost (.new logSeven) 1 (sevenState 2 7) ⟨1, 0x40, 35, 0⟩ :=
    ⟨⟨_, hrun₁, hpage₁⟩, by decide +kernel⟩
  intro i hi t pcmd hd x hx
  rcases i with _ | _ | i
  · obtain ⟨rfl, rfl⟩ := hfirst.unique hd
    have hreads : reads zeroHost (sevenState 1 0).chip ⟨1, 0x01, 35, 7⟩ = [regPc] := by decide +kernel
    rw [hreads, List.mem_singleton] at hx
    exact .inl (by rw [hx]; decide)
  · obtain ⟨rfl, rfl⟩ := hsecond.unique hd
    have hreads : reads zeroHost (sevenState 2 7).chip ⟨1, 0x40, 35, 0⟩ = [regPc, 35] := by
      decide +kernel
    have hwrites : (35 : Word) ∈ writes zeroHost (sevenState 1 0).chip ⟨1, 0x01, 35, 7⟩ := by
      decide +kernel
    rw [hreads] at hx
    rcases List.mem_cons.mp hx with rfl | hx
    · exact .inl (by decide)
    · rw [List.mem_singleton] at hx
      exact .inr ⟨0, Nat.zero_lt_one, _, _, hfirst, hx ▸ hwrites⟩
  · omega

theorem fresh_unseen_seven :
    Pairs (Outcomes (Seen (Written zeroHost (.new logSeven) 2))
        (Seen (Written zeroHost (.new logSeven) 2)))
      (run zeroHost (.new logSeven) 2)
      (run (zeroHost.withMalloc fun _ => some fun i => .ofNat 32 (99 + i)) (.new logSeven) 2) :=
  fresh_unseen zeroHost _ logSeven 2 (fun _ => rfl) seven_readsWritten

end Vm
