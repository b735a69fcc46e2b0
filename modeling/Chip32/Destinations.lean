import Chip32.Emission
import Chip32.VmControl

/-!
# Destinations of assembled code

The assembler looks at the destination of a command with two operands, but takes
the only operand of `inc`, `dec`, `bnot` and `pop` for a source. Where no line makes
use of that, the machine always finds a cell to store to.
-/
namespace Asm

open Runs Vm

/-- A command that stores has a destination that is a cell. -/
def Lands (m : Command) : Prop := Stores (.ofCode m.cmd) → Writable (arg0fGet m.flags)

instance : DecidablePred Lands := fun _ => inferInstanceAs (Decidable (_ → _))

/-- A line of one operand that stores to it, where it is written without `$` and `*`. -/
def StoresToValue (cmd : Lexcmd) : Prop :=
  ∃ op, actionOf cmd = some (.onearg op) ∧ Stores op ∧
    ∃ tk, cmd[firstPos cmd]? = some tk ∧ tk.type ≠ .ram ∧ tk.type ≠ .ptr

theorem lands_of_not {m : Command} (op : Opcode) (hm : m.cmd = op.code)
    (h : Stores op = false) : Lands m := by
  intro hs
  rw [hm, Opcode.ofCode_code, h] at hs
  cases hs

theorem writable_one (type : Tktype) :
    Writable (arg0fGet (setMode 0 false (rvalueType type))) ↔ type = .ram ∨ type = .ptr := by
  rw [arg0fGet_one]
  cases type <;> decide

theorem lands_moves (addr : Word) (j : Nat) (vs : List Word) : ∀ m ∈ moves addr j vs, Lands m := by
  induction vs generalizing j with
  | nil => exact nofun
  | cons v vs ih =>
    rw [moves, List.forall_mem_cons]
    exact ⟨fun _ => .inl (arg0fGet_dest .ram), ih (j + 1)⟩

/-- The actions without operands, and the ones that jump, do not store. -/
theorem actions_store : ∀ a ∈ actions.map Prod.snd,
    ∀ op, a = .noarg op ∨ a = .branch op → Stores op = false := by
  simp only [actions, List.map_cons, List.map_nil, List.forall_mem_cons]
  simp [Stores]

/-- The commands of a line land, unless it stores to a value. -/
theorem lands_line (cmd : Lexcmd) (a : Action) (ms : List Command) (ha : actionOf cmd = some a)
    (h : Emits cmd a ms) : (∀ m ∈ ms, Lands m) ↔ ¬ StoresToValue cmd := by
  have hother : (∀ op, a ≠ .onearg op) → ¬ StoresToValue cmd := by
    rintro hne ⟨op, hop, _⟩
    exact hne op (Option.some.inj (ha.symm.trans hop))
  have hstore := actions_store a (mem_actions ha)
  cases h with
  | declare addr vs => exact iff_of_true (lands_moves addr 0 vs) (hother nofun)
  | initr n =>
    exact iff_of_true (List.forall_mem_singleton.mpr (lands_of_not .initr rfl rfl)) (hother nofun)
  | noarg op =>
    have hno := hstore op (.inl rfl)
    exact iff_of_true (List.forall_mem_singleton.mpr (lands_of_not op rfl hno)) (hother nofun)
  | onearg op htk v =>
    rename_i tk
    rw [List.forall_mem_singleton, Lands, Opcode.ofCode_code, writable_one]
    constructor
    · rintro hw ⟨op', hop, hs, tk', htk', hram, hptr⟩
      cases Option.some.inj (ha.symm.trans hop)
      cases htk.symm.trans htk'
      rcases hw hs with ht | ht
      · exact hram ht
      · exact hptr ht
    · intro hno hs
      by_contra hne
      rw [not_or] at hne
      exact hno ⟨op, ha, hs, tk, htk, hne⟩
  | twoarg op hm m' v w =>
    refine iff_of_true (List.forall_mem_singleton.mpr fun _ => ?_) (hother nofun)
    rw [arg0fGet_two]
    exact hm
  | jmpi m v =>
    exact iff_of_true (List.forall_mem_singleton.mpr (lands_of_not .jmp rfl rfl)) (hother nofun)
  | branch op flags v w =>
    have hno := hstore op (.inr rfl)
    exact iff_of_true (List.forall_mem_singleton.mpr (lands_of_not op rfl hno)) (hother nofun)

section Machine

variable {prog buf : List Command} {malloc : Word → Option (Nat → Word)} {un : Unspecified}
  {h : Host} {k : Nat} {s u : Loop}

/-- The dispatched command stores to a cell, if at all, and nothing is complained of. -/
def NeverComplains (h : Host) (s : Loop) : Prop :=
  ∀ t, turnPage h s = .ok (.next t) →
    (∀ pcmd, current t.chip = some pcmd → Lands pcmd) ∧
      ∀ u, dispatch h t = .ok u → u.chip.stdout = t.chip.stdout

theorem tracks_stdout : Tracks fun c d => d.stdout = c.stdout where
  refl _ := rfl
  trans h h' := h'.trans h
  write _ _ _ := rfl
  fail _ := rfl
  print _ _ := rfl

/-- The entries of a page that is loaded. -/
theorem lands_pageLoad (hp : ∀ m ∈ prog, Lands m) (addr : Word) (data : List Command) :
    ∀ e ∈ (ObjectFile.pageLoad (ObjectFile.commandsSave prog) addr data).2, Lands e := by
  rw [ObjectFile.pageLoad_commandsSave]
  intro e he
  rcases List.mem_append.mp he with he | he
  · exact hp e (List.mem_of_mem_drop (List.mem_of_mem_take he))
  · obtain ⟨d, _, rfl⟩ := List.mem_map.mp he
    exact lands_of_not .nop rfl rfl

theorem lands_fetched (hp : ∀ m ∈ prog, Lands m) (hs : ∀ e ∈ s.chip.data, Lands e) :
    ∀ e ∈ (fetched (ObjectFile.host (ObjectFile.commandsSave prog) malloc un) s).chip.data,
      Lands e := by
  unfold fetched
  split
  · exact hs
  · exact lands_pageLoad hp _ _

/-- An entry keeps its code and its flags. -/
theorem lands_dispatch (hs : ∀ e ∈ s.chip.data, Lands e) (hd : dispatch h s = .ok u) :
    ∀ e ∈ u.chip.data, Lands e := by
  obtain ⟨pcmd, hcur, hdata⟩ := dispatch_spec hd
  intro e he
  rw [hdata] at he
  rcases List.mem_or_eq_of_mem_set he with he | rfl
  · exact hs e he
  · exact hs pcmd (List.mem_of_getElem? hcur)

theorem run_lands (hp : ∀ m ∈ prog, Lands m)
    (hr : run (ObjectFile.host (ObjectFile.commandsSave prog) malloc un) (Chip.new buf) k =
      .ok (.next s)) : ∀ e ∈ s.chip.data, Lands e := by
  refine reached_invariant (I := fun s => ∀ e ∈ s.chip.data, Lands e) (P := fun _ => True)
    (fun s hs => ?_) (fun s u hi _ hu => ?_) (fun _ _ _ _ => trivial) hr
  · rw [start_data hs]
    exact lands_pageLoad hp 0 buf
  · obtain ⟨t, ht, hd⟩ := turn_next hu
    obtain ⟨_, rfl, _⟩ := turnPage_next_iff.mp ht
    exact lands_dispatch (lands_fetched hp hi) hd

theorem neverComplains (hp : ∀ m ∈ prog, Lands m)
    (hr : run (ObjectFile.host (ObjectFile.commandsSave prog) malloc un) (Chip.new buf) k =
      .ok (.next s)) :
    NeverComplains (ObjectFile.host (ObjectFile.commandsSave prog) malloc un) s := by
  intro t ht
  have hm := (run_memory hr).turnPage ht
  obtain ⟨_, rfl, _⟩ := turnPage_next_iff.mp ht
  have hlands : ∀ pcmd, current (fetched (ObjectFile.host (ObjectFile.commandsSave prog) malloc un)
      s).chip = some pcmd → Lands pcmd :=
    fun pcmd hcur => lands_fetched hp (run_lands hp hr) pcmd (List.mem_of_getElem? hcur)
  refine ⟨hlands, fun u hd => ?_⟩
  obtain ⟨pcmd, d, q, hcur, he, rfl⟩ := dispatch_next hd
  exact execute_tracks tracks_stdout (tracks_stdout.refl _) _ hm.ne_nil
    (fun hs => .inl (hlands pcmd hcur hs)) _ he

end Machine

/-- Every command of an accepted source that stores has a cell for its destination, exactly
when no `inc`, `dec`, `bnot` or `pop` is given an operand without `$` and `*`; and then the
machine that runs it never finds one that has none. -/
theorem destinations_iff {code : Text} {c : Asmchip32} (hb : build code = .ok c) :
    ((∀ m ∈ c.mc, Stores (.ofCode m.cmd) → Writable (arg0fGet m.flags)) ↔
      ∀ cmd ∈ c.vcmd, ¬ StoresToValue cmd) ∧
    ((∀ cmd ∈ c.vcmd, ¬ StoresToValue cmd) → ∀ malloc un buf k s,
      Vm.run (ObjectFile.host (ObjectFile.commandsSave c.mc) malloc un) (Chip.new buf) k =
        .ok (.next s) →
      NeverComplains (ObjectFile.host (ObjectFile.commandsSave c.mc) malloc un) s) := by
  have hiff := build_emitted lands_line hb
  exact ⟨hiff, fun hno malloc un buf k s hr => neverComplains (hiff.mpr hno) hr⟩

/-- A counter in cell 35. -/
def counted : Text := "initr 40\ninc $35\n".toList

theorem destinations_iff_counted :
    (∀ m ∈ (final (build counted)).mc, Stores (.ofCode m.cmd) → Writable (arg0fGet m.flags)) ↔
      ∀ cmd ∈ (final (build counted)).vcmd, ¬ StoresToValue cmd :=
  (destinations_iff (ok_final (by decide +kernel))).1

/-- `inc 5` is accepted. -/
theorem incLiteral_nowhere : ∃ c, build "initr 40\ninc 5\n".toList = .ok c ∧
    ∃ m ∈ c.mc, Stores (.ofCode m.cmd) ∧ ¬ Writable (arg0fGet m.flags) :=
  ⟨final (build "initr 40\ninc 5\n".toList), ok_final (by decide +kernel), by decide +kernel⟩

end Asm
