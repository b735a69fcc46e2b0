import Chip32.VmFrame
import Chip32.ObjectFile

/-!
# The program in memory

A run without page reloads works on the one page `chip32_run` loaded first. It
executes the file's commands as long as no `logs` and no `strcpy` is executed, or
only such as go over all the words there are; any other leaves its own entry of the
page changed, until its executions have gone around together.
-/
namespace Vm

/-- The index of `c->data[pc]`. -/
def pcIndex (c : Chip) : Nat := ((cell c.ram regPc).signExtend 64).toNat

/-- `c->data[pc]`. -/
def current (c : Chip) : Option Command := c.data[pcIndex c]?

/-- The loop does not ask for another page. -/
def NoReload (c : Chip) : Prop := pageOf (cell c.ram regPc) c.pagesize = c.pagecurrent

instance (c : Chip) : Decidable (NoReload c) := inferInstanceAs (Decidable (_ = _))

variable {h : Host} {c : Chip} {s t u s₀ : Loop} {pcmd : Command}

theorem execute_frame {d : Chip} {q : Command} (he : execute h c pcmd = .ok (d, q)) :
    d.page = c.page ∧ q = shifted pcmd (words h c pcmd) := by
  obtain ⟨⟨c₁, q₁⟩, h₁, he⟩ := Runs.bind_eq_ok.mp he
  obtain ⟨pc, _, he⟩ := Runs.bind_eq_ok.mp he
  obtain ⟨c₂, h₂, he⟩ := Runs.bind_eq_ok.mp he
  cases he
  obtain ⟨_, rfl⟩ := store_eq_ok.mp h₂
  obtain ⟨hpage, hq⟩ := commands_shifted h₁
  exact ⟨hpage, hq⟩

theorem dispatch_next (hd : dispatch h s = .ok u) :
    ∃ pcmd d q, current s.chip = some pcmd ∧ execute h s.chip pcmd = .ok (d, q) ∧
      u = { s with chip := { d with data := d.data.set (pcIndex s.chip) q } } := by
  obtain ⟨pc, hpc, hd⟩ := Runs.bind_eq_ok.mp hd
  obtain ⟨_, rfl⟩ := load_eq_ok.mp hpc
  simp only at hd
  split at hd
  · cases hd
  · next pcmd hcur =>
    obtain ⟨⟨d, q⟩, he, hd⟩ := Runs.bind_eq_ok.mp hd
    cases hd
    exact ⟨pcmd, d, q, hcur, he, rfl⟩

/-- What a dispatch does to the page. -/
theorem dispatch_spec (hd : dispatch h s = .ok u) : ∃ pcmd, current s.chip = some pcmd ∧
    u.chip.data = s.chip.data.set (pcIndex s.chip) (shifted pcmd (words h s.chip pcmd)) := by
  obtain ⟨pcmd, d, q, hcur, he, rfl⟩ := dispatch_next hd
  obtain ⟨hp, rfl⟩ := execute_frame he
  have hdata : d.data = s.chip.data := congrArg Page.data hp
  exact ⟨pcmd, hcur, by simp only [hdata]⟩

/-- The command is neither a `logs` nor a `strcpy`, or goes over all the words there are. -/
def Stays (h : Host) (c : Chip) (pcmd : Command) : Prop :=
  Rewrites (.ofCode pcmd.cmd) → words h c pcmd = 2 ^ 32

theorem stays_iff : Stays h c pcmd ↔ 2 ^ 32 ∣ words h c pcmd := by
  by_cases hw : Rewrites (.ofCode pcmd.cmd)
  · obtain ⟨hpos, hle⟩ := words_bounds (h := h) (c := c) hw
    refine ⟨fun hs => hs hw ▸ Nat.dvd_refl _, fun hd _ => ?_⟩
    exact Nat.le_antisymm hle (Nat.le_of_dvd hpos hd)
  · rw [words_eq_zero hw]
    exact iff_of_true (fun hw' => absurd hw' hw) (Nat.dvd_zero _)

/-- A dispatch leaves the page as it was exactly when its command stays. -/
theorem dispatch_data_iff (hd : dispatch h s = .ok u) (hc : current s.chip = some pcmd) :
    u.chip.data = s.chip.data ↔ Stays h s.chip pcmd := by
  obtain ⟨p, hp, hdata⟩ := dispatch_spec hd
  obtain rfl : p = pcmd := Option.some.inj (hp.symm.trans hc)
  obtain ⟨hlt, hat⟩ := List.getElem?_eq_some_iff.mp hc
  rw [stays_iff, ← (shifted_eq_self : shifted p _ = p ↔ _), hdata]
  constructor
  · intro hsame
    have hset := congrArg (·[pcIndex s.chip]?) hsame
    simp only [List.getElem?_set_self hlt] at hset
    exact Option.some.inj (hset.trans hc)
  · intro he
    rw [he, ← hat]
    exact List.set_getElem_self hlt

theorem turn_next (ht : turn h s = .ok (.next u)) :
    ∃ t, turnPage h s = .ok (.next t) ∧ dispatch h t = .ok u := by
  obtain ⟨o, ho, ht⟩ := Runs.bind_eq_ok.mp ht
  cases o with
  | stop t => cases ht
  | next t =>
    obtain ⟨v, hv, ht⟩ := Runs.bind_eq_ok.mp ht
    cases ht
    exact ⟨t, ho, hv⟩

theorem turnPage_still (hn : NoReload s.chip) (ht : turnPage h s = .ok (.next t)) : t = s := by
  unfold turnPage at ht
  split at ht
  · cases ht
  · obtain ⟨pc, hpc, ht⟩ := Runs.bind_eq_ok.mp ht
    obtain ⟨_, rfl⟩ := load_eq_ok.mp hpc
    have hpage : pageOf (cell s.chip.ram regPc) s.chip.pagesize = s.chip.pagecurrent := hn
    simp only [hpage, ne_eq, not_true_eq_false, if_false, and_false] at ht
    split at ht
    · cases ht
    · split at ht
      · cases ht
      · cases ht
        rfl

theorem reload_spec (page : Word) :
    (reload h page s).chip.ram = s.chip.ram ∧ (reload h page s).chip.pagesize = s.chip.pagesize ∧
      (reload h page s).chip.data.length = s.chip.data.length :=
  ⟨rfl, rfl, h.length_dataLoad page s.chip.data⟩

/-- A page is loaded over the old one, and into nothing else. -/
theorem turnPage_next (ht : turnPage h s = .ok (.next t)) :
    t.chip.ram = s.chip.ram ∧ t.chip.pagesize = s.chip.pagesize ∧
      t.chip.data.length = s.chip.data.length := by
  unfold turnPage at ht
  split at ht
  · cases ht
  · obtain ⟨pc, _, ht⟩ := Runs.bind_eq_ok.mp ht
    simp only at ht
    generalize hu : (if pageOf pc s.chip.pagesize ≠ s.chip.pagecurrent then
      reload h (pageOf pc s.chip.pagesize) s else s) = u at ht
    have hspec : u.chip.ram = s.chip.ram ∧ u.chip.pagesize = s.chip.pagesize ∧
        u.chip.data.length = s.chip.data.length := by
      rw [← hu]
      split
      · exact reload_spec _
      · exact ⟨rfl, rfl, rfl⟩
    split at ht
    · cases ht
    · split at ht
      · cases ht
      · split at ht
        · cases ht
        · cases ht
          exact hspec

/-- The page the loop starts with is the page the loader filled. -/
theorem start_data (hs : start h c = .ok (.next s₀)) :
    s₀.chip.data = (h.dataLoad 0 c.data).2 := by
  unfold start at hs
  simp only at hs
  split at hs
  · cases hs
  · split at hs
    · cases hs
    · next pcmd rest hdata =>
      split at hs
      · cases hs
      · obtain ⟨⟨d, q⟩, hi, hs⟩ := Runs.bind_eq_ok.mp hs
        simp only at hs
        split at hs
        · cases hs
        · cases hs
          rw [(frame_initr.kept hi).2]
          exact hdata.symm

/-- Iteration `i` of the loop entered in `s₀` leads from `s` to `u` and executes `pcmd`. -/
structure Executes (h : Host) (s₀ : Loop) (i : Nat) (s u : Loop) (pcmd : Command) : Prop where
  reached : Runs.iterate (turn h) i s₀ = .ok (.next s)
  turned : turn h s = .ok (.next u)
  current : current s.chip = some pcmd

/-- The words that the command at entry `j` goes over, if that is where the PC is. -/
def wordsAt (h : Host) (j : Nat) (c : Chip) : Nat :=
  if pcIndex c = j then (current c).elim 0 (words h c) else 0

/-- The words that the executions of entry `j` have gone over before iteration `i`. -/
def gone (h : Host) (s₀ : Loop) (j : Nat) : Nat → Nat
  | 0 => 0
  | i + 1 => gone h s₀ j i + match Runs.iterate (turn h) i s₀ with
    | .ok (.next s) => wordsAt h j s.chip
    | _ => 0

/-- No page is loaded in the first `k` iterations. -/
def Still (h : Host) (s₀ : Loop) (k : Nat) : Prop :=
  ∀ i < k, ∀ s, Runs.iterate (turn h) i s₀ = .ok (.next s) → NoReload s.chip

theorem Executes.dispatched {i : Nat} (hx : Executes h s₀ i s u pcmd) (hn : NoReload s.chip) :
    dispatch h s = .ok u := by
  obtain ⟨t, ht, hd⟩ := turn_next hx.turned
  rwa [turnPage_still hn ht] at hd

theorem gone_succ {i j : Nat} (hr : Runs.iterate (turn h) i s₀ = .ok (.next s)) :
    gone h s₀ j (i + 1) = gone h s₀ j i + wordsAt h j s.chip := by
  rw [gone, hr]

/-- An entry of the page is the file's, moved on by the words its executions went over. -/
theorem entry_of_reached {k : Nat} (hstill : Still h s₀ k) {i : Nat} (hi : i ≤ k)
    (hr : Runs.iterate (turn h) i s₀ = .ok (.next s)) {j : Nat} {f : Command}
    (hf : s₀.chip.data[j]? = some f) :
    s.chip.data[j]? = some (shifted f (gone h s₀ j i)) := by
  induction i generalizing s with
  | zero =>
    cases hr
    rw [gone, shifted_zero]
    exact hf
  | succ i ih =>
    obtain ⟨t, ht, hturn⟩ := (Runs.iterate_succ_next (turn h)).mp hr
    have hp := ih (by omega) ht
    obtain ⟨v, hv, hd⟩ := turn_next hturn
    obtain rfl := turnPage_still (hstill i (by omega) t ht) hv
    obtain ⟨pcmd, hc, hdata⟩ := dispatch_spec hd
    rw [hdata, gone_succ ht, wordsAt]
    by_cases hj : pcIndex v.chip = j
    · subst hj
      obtain rfl : pcmd = shifted f (gone h s₀ (pcIndex v.chip) i) :=
        Option.some.inj (hc.symm.trans hp)
      obtain ⟨hlt, _⟩ := List.getElem?_eq_some_iff.mp hp
      rw [List.getElem?_set_self hlt, if_pos rfl, hc, shifted_shifted]
      rfl
    · rw [List.getElem?_set_ne hj, if_neg hj, Nat.add_zero]
      exact hp

theorem length_of_reached {k : Nat} (hstill : Still h s₀ k) {i : Nat} (hi : i ≤ k)
    (hr : Runs.iterate (turn h) i s₀ = .ok (.next s)) :
    s.chip.data.length = s₀.chip.data.length := by
  induction i generalizing s with
  | zero =>
    cases hr
    rfl
  | succ i ih =>
    obtain ⟨t, ht, hturn⟩ := (Runs.iterate_succ_next (turn h)).mp hr
    obtain ⟨v, hv, hd⟩ := turn_next hturn
    obtain rfl := turnPage_still (hstill i (by omega) t ht) hv
    obtain ⟨_, _, hdata⟩ := dispatch_spec hd
    rw [hdata, List.length_set, ih (by omega) ht]

/-- An execution uses the file's operands exactly when those before it went around together. -/
theorem executes_file_iff {k : Nat} (hstill : Still h s₀ k) {i : Nat} (hi : i ≤ k)
    (hx : Executes h s₀ i s u pcmd) :
    s₀.chip.data[pcIndex s.chip]? = some pcmd ↔ 2 ^ 32 ∣ gone h s₀ (pcIndex s.chip) i := by
  obtain ⟨hlt, _⟩ := List.getElem?_eq_some_iff.mp hx.current
  have hf := List.getElem?_eq_getElem (length_of_reached hstill hi hx.reached ▸ hlt)
  have hnow := hx.current.symm.trans (entry_of_reached hstill hi hx.reached hf)
  rw [hf, hnow, Option.some.injEq, eq_comm]
  exact shifted_eq_self

/-- Where every command stays, no entry has moved. -/
theorem gone_dvd {k : Nat} (hstill : Still h s₀ k)
    (hs : ∀ i < k, ∀ s u pcmd, Executes h s₀ i s u pcmd → Stays h s.chip pcmd) {i j : Nat}
    (hi : i ≤ k) (hr : Runs.iterate (turn h) i s₀ = .ok (.next s)) : 2 ^ 32 ∣ gone h s₀ j i := by
  induction i generalizing s with
  | zero => exact Nat.dvd_zero _
  | succ i ih =>
    obtain ⟨t, ht, hturn⟩ := (Runs.iterate_succ_next (turn h)).mp hr
    obtain ⟨v, hv, hd⟩ := turn_next hturn
    obtain rfl := turnPage_still (hstill i (by omega) t ht) hv
    obtain ⟨pcmd, hc, _⟩ := dispatch_spec hd
    rw [gone_succ ht]
    refine Nat.dvd_add (ih (by omega) ht) ?_
    rw [wordsAt, hc]
    split
    · exact stays_iff.mp (hs i hi v s pcmd ⟨ht, hturn, hc⟩)
    · exact Nat.dvd_zero _

/-- In the first `k` iterations every dispatch keeps the page and executes a command of the file. -/
def KeepsProgram (h : Host) (c : Chip) (s₀ : Loop) (k : Nat) : Prop :=
  ∀ i < k, ∀ s u pcmd, Executes h s₀ i s u pcmd → u.chip.data = s.chip.data ∧
    (h.dataLoad 0 c.data).2[pcIndex s.chip]? = some pcmd

/-- Dispatches keep the page, and a run without reloads the program, exactly as long as no
`logs` and no `strcpy` is executed but such as go over all the words there are; a
command's operands are the file's exactly when its executions before have gone around
together. -/
theorem keepsProgram_iff :
    (∀ s u pcmd, dispatch h s = .ok u → current s.chip = some pcmd →
      (u.chip.data = s.chip.data ↔ Stays h s.chip pcmd)) ∧
    ∀ c s₀ k, start h c = .ok (.next s₀) → Still h s₀ k →
      (KeepsProgram h c s₀ k ↔
        ∀ i < k, ∀ s u pcmd, Executes h s₀ i s u pcmd → Stays h s.chip pcmd) ∧
      ∀ i < k, ∀ s u pcmd, Executes h s₀ i s u pcmd →
        ((h.dataLoad 0 c.data).2[pcIndex s.chip]? = some pcmd ↔
          2 ^ 32 ∣ gone h s₀ (pcIndex s.chip) i) := by
  refine ⟨fun s u pcmd => dispatch_data_iff, fun c s₀ k hs hstill => ?_⟩
  have hfile := start_data hs
  have hiff : ∀ i < k, ∀ s u pcmd, Executes h s₀ i s u pcmd →
      ((h.dataLoad 0 c.data).2[pcIndex s.chip]? = some pcmd ↔
        2 ^ 32 ∣ gone h s₀ (pcIndex s.chip) i) := by
    intro i hi s u pcmd hx
    rw [← hfile]
    exact executes_file_iff hstill (by omega) hx
  refine ⟨⟨fun hkeeps i hi s u pcmd hx => ?_, fun hstays i hi s u pcmd hx => ⟨?_, ?_⟩⟩, hiff⟩
  · have hd := hx.dispatched (hstill i hi s hx.reached)
    exact (dispatch_data_iff hd hx.current).mp (hkeeps i hi s u pcmd hx).1
  · have hd := hx.dispatched (hstill i hi s hx.reached)
    exact (dispatch_data_iff hd hx.current).mpr (hstays i hi s u pcmd hx)
  · exact (hiff i hi s u pcmd hx).mpr (gone_dvd hstill hstays (Nat.le_of_lt hi) hx.reached)

/-- `initr 40`, the printing of the empty string in cell 35, and a jump back to it. -/
def printAgain : List Command := [⟨0, 0x30, 40, 0⟩, ⟨1, 0x43, 35, 0⟩, ⟨0, 0x20, 1, 0⟩]

/-- Memory comes zeroed, pages of four commands from the saved program. -/
def printHost : Host :=
  ObjectFile.host (ObjectFile.commandsSave printAgain) (fun _ => some fun _ => 0) ⟨⟨0, 0, 0, 0⟩, true⟩

def printChip : Chip := .new (List.replicate 4 ⟨0, 0, 0, 0⟩)

/-- The machine as the loop reaches `pc` with the operand `arg0` of the `logs`. -/
def printState (pc arg0 : Word) : Loop where
  chip :=
    { printChip with
      ram := List.replicate 32 0 ++ [pc, 39, 39] ++ List.replicate 5 0
      ramsize := 40
      data := [⟨0, 0x30, 40, 0⟩, ⟨1, 0x43, arg0, 0⟩, ⟨0, 0x20, 1, 0⟩, ⟨0, 0, 0, 0⟩] }
  ncmds := 3

theorem print_start : start printHost printChip = .ok (.next (printState 1 35)) :=
  Runs.ok_of_toOption (by decide +kernel)

theorem print_turns :
    turn printHost (printState 1 35) = .ok (.next (printState 2 36)) ∧
      turn printHost (printState 2 36) = .ok (.next (printState 1 36)) ∧
      turn printHost (printState 1 36) = .ok (.next (printState 2 37)) :=
  ⟨Runs.ok_of_toOption (by decide +kernel), Runs.ok_of_toOption (by decide +kernel),
    Runs.ok_of_toOption (by decide +kernel)⟩

theorem print_still : Still printHost (printState 1 35) 3 := by
  obtain ⟨h₁, h₂, h₃⟩ := print_turns
  intro i hi s hr
  rcases i with _ | _ | _ | i
  · cases hr
    decide
  · rw [Runs.iterate_succ_of_next _ _ h₁] at hr
    cases hr
    decide
  · rw [Runs.iterate_succ_of_next _ _ h₁, Runs.iterate_succ_of_next _ _ h₂] at hr
    cases hr
    decide
  · omega

/-- The second `logs` prints from cell 36. -/
theorem printAgain_rewritten :
    ∃ s₀, start printHost printChip = .ok (.next s₀) ∧ Still printHost s₀ 3 ∧
      ¬ KeepsProgram printHost printChip s₀ 3 := by
  obtain ⟨h₁, h₂, h₃⟩ := print_turns
  refine ⟨_, print_start, print_still, fun hkeeps => ?_⟩
  have hx : Executes printHost (printState 1 35) 2 (printState 1 36) (printState 2 37)
      ⟨1, 0x43, 36, 0⟩ :=
    ⟨by rw [Runs.iterate_succ_of_next _ _ h₁, Runs.iterate_succ_of_next _ _ h₂]; rfl, h₃,
      by decide⟩
  exact absurd (hkeeps 2 (by omega) _ _ _ hx).2 (by decide +kernel)

theorem keepsProgram_iff_print :
    (KeepsProgram printHost printChip (printState 1 35) 3 ↔
      ∀ i < 3, ∀ s u pcmd, Executes printHost (printState 1 35) i s u pcmd →
        Stays printHost s.chip pcmd) :=
  (keepsProgram_iff.2 printChip (printState 1 35) 3 print_start print_still).1

end Vm
