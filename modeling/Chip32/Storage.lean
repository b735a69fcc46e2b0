import Chip32.ParserSpec
import Mathlib.Data.Int.ConditionallyCompleteOrder
import Mathlib.Data.Set.BooleanAlgebra
import Mathlib.Order.CompletePartialOrder
import Mathlib.Order.ConditionallyCompleteLattice.Basic
import Mathlib.Order.Interval.Set.Disjoint

/-!
# Automatic storage

Each declaration with `?` for its address gets the cells from the next automatic
address on. Where a number is written for the size, the next address moves by
the number in the token behind it instead, if the initialiser is a list, and by
the length of the string if it is one.
-/
namespace Asm

open Runs Vm

/-- A declaration with an automatic address. -/
def IsAuto (cmd : Lexcmd) : Prop :=
  actionOf cmd = some .declare ∧ cmd[2]?.map Lextoken.type = some .auto

instance (cmd : Lexcmd) : Decidable (IsAuto cmd) := inferInstanceAs (Decidable (_ ∧ _))

/-- How far an accepted declaration moves the next automatic address. -/
def advanceOf (cmd : Lexcmd) : BitVec 64 :=
  match cmd[3]?, cmd[4]? with
  | none, _ => 1
  | _, none => 0
  | some _, some init =>
    if init.type = .literalStr then BitVec.ofNat 64 (stringBody init).length + 1
    else strtoul init.start

theorem Storage.advance {cmd : Lexcmd} {n : BitVec 64} {vs : List Word} (h : Storage cmd n vs) :
    n = advanceOf cmd := by
  cases h with
  | cell h => simp [advanceOf, h]
  | string h₃ _ h₄ hinit => simp [advanceOf, h₃, h₄, hinit]
  | list h₃ _ h₄ hinit => rcases hinit with h | h <;> simp [advanceOf, h₃, h₄, h]

theorem takes_avaddr {a : Action} {c d : Asmchip32} {cmd : Lexcmd} (ha : actionOf cmd = some a)
    (h : a.Takes c cmd d) :
    d.avaddr = if IsAuto cmd then c.avaddr + advanceOf cmd else c.avaddr := by
  have hother : a ≠ .declare → ¬ IsAuto cmd := by
    rintro hne ⟨hd, _⟩
    exact hne (Option.some.inj (ha.symm.trans hd))
  cases a with
  | declare =>
    obtain ⟨tk, pl, addr, dauto, n, vs, _, _, hpl, hp, hst, _, rfl⟩ := h
    have hn := hst.advance
    cases ht : pl.type with
    | auto =>
      simp only [place, ht] at hp
      cases hp
      rw [if_pos ⟨ha, by simp [hpl, ht]⟩, hn]
      rfl
    | literalNum =>
      simp only [place, ht] at hp
      cases hp
      rw [if_neg fun hauto => nomatch (by simpa [hpl, ht] using hauto.2 : False)]
      rfl
    | _ => simp [place, ht] at hp
  | initr =>
    obtain ⟨_, _, _, _, rfl⟩ := h
    rw [if_neg (hother nofun)]
    rfl
  | noarg op =>
    cases h
    rw [if_neg (hother nofun)]
    unfold tryLabel
    split_ifs
    · rfl
    · cases cmd <;> rfl
  | onearg op | jmpi =>
    obtain ⟨_, _, _, _, _, rfl⟩ := h
    rw [if_neg (hother nofun)]
    rfl
  | twoarg op | branch op =>
    obtain ⟨_, _, tk, _, _, _, _, _, _, rfl⟩ := h
    rw [if_neg (hother nofun)]
    exact (markLabel_keeps _ tk).2.1

/-- The number of cells of a declaration: the number written for the size, else the
cells its initialiser stores to, else one. -/
def cellCount (c d : Asmchip32) (cmd : Lexcmd) : Int :=
  match cmd[3]? with
  | none => 1
  | some tk => if tk.type = .literalNum then (strtoul tk.start).toInt else d.mc.length - c.mc.length

/-- The cells of the automatic variable a line declares, from its declared address on. -/
def interval (c d : Asmchip32) (cmd : Lexcmd) : Option (Set Int) :=
  if IsAuto cmd then
    (d.declare[c.declare.length]?).map fun x =>
      Set.Ico (x.addr.toNat : Int) (x.addr.toNat + cellCount c d cmd)
  else none

/-- The intervals of all automatic variables, in the order of their lines. -/
def intervals : Asmchip32 → List Lexcmd → List (Set Int)
  | _, [] => []
  | c, cmd :: cmds =>
    match parseStep c cmd with
    | .error _ => []
    | .ok d => (interval c d cmd).toList ++ intervals d cmds

/-- No two automatic variables overlap, and none lies below `CHIP32_REG_LAST`. -/
def Apart (l : List (Set Int)) : Prop :=
  l.Pairwise Disjoint ∧ ∀ s ∈ l, s ⊆ Set.Ici (regLast.toNat : Int)

/-- The size a declaration asks for, read off its tokens. -/
def wanted (cmd : Lexcmd) : Int :=
  match cmd[3]?, cmd[4]? with
  | none, _ => 1
  | some size, init =>
    if size.type = .literalNum then (strtoul size.start).toInt
    else (init.map fun tk => (stringBody tk).length + 1).getD 0

/-- The next automatic address moves on by at least the size asked for, and fits a `uint32_t`. -/
def Sized (c : Asmchip32) (cmd : Lexcmd) : Prop :=
  IsAuto cmd → c.avaddr.toNat < 2 ^ 32 ∧ 0 ≤ (advanceOf cmd).toInt ∧
    wanted cmd ≤ (advanceOf cmd).toInt

instance (c : Asmchip32) (cmd : Lexcmd) : Decidable (Sized c cmd) :=
  inferInstanceAs (Decidable (_ → _))

theorem auto_takes {a : Action} {c d : Asmchip32} {cmd : Lexcmd} (ha : actionOf cmd = some a)
    (h : a.Takes c cmd d) (hauto : IsAuto cmd) :
    (∃ name, d.declare = c.declare ++ [⟨.literalNum, c.avaddr.setWidth 32, name⟩]) ∧
      cellCount c d cmd = wanted cmd := by
  cases ha.symm.trans hauto.1
  obtain ⟨tk, pl, addr, dauto, n, vs, _, _, hpl, hp, hst, _, rfl⟩ := h
  have ht : pl.type = .auto := by simpa [hpl] using hauto.2
  simp only [place, ht] at hp
  cases hp
  refine ⟨⟨tk.text, rfl⟩, ?_⟩
  cases hst with
  | cell h₃ => simp [cellCount, wanted, h₃]
  | string h₃ hsize h₄ hinit =>
    rcases hsize with hs | hs
    · simp [cellCount, wanted, h₃, hs]
    · simp only [cellCount, wanted, h₃, h₄, hs, length_stored, reduceCtorEq, if_false,
        List.length_append, List.length_map, List.length_singleton, Option.map_some, Option.getD_some]
      omega
  | list h₃ hsize h₄ hinit => simp [cellCount, wanted, h₃, hsize]

theorem interval_eq {a : Action} {c d : Asmchip32} {cmd : Lexcmd} (ha : actionOf cmd = some a)
    (h : a.Takes c cmd d) :
    interval c d cmd = if IsAuto cmd then
      some (Set.Ico ((c.avaddr.setWidth 32).toNat : Int) ((c.avaddr.setWidth 32).toNat + wanted cmd))
      else none := by
  unfold interval
  split_ifs with hauto
  · obtain ⟨⟨name, hd⟩, hcount⟩ := auto_takes ha h hauto
    simp [hd, hcount]
  · rfl

theorem interval_auto {c d : Asmchip32} {cmd : Lexcmd} (hcmd : WellLexed cmd)
    (h : parseStep c cmd = .ok d) (hauto : IsAuto cmd) : ∃ s, interval c d cmd = some s := by
  obtain ⟨a, ha, htakes⟩ := (parseStep_ok hcmd).mp h
  exact ⟨_, (interval_eq ha htakes).trans (if_pos hauto)⟩

/-- One line: its interval starts at the next automatic address and ends before the new one. -/
theorem step_sized {c d : Asmchip32} {cmd : Lexcmd} (hcmd : WellLexed cmd)
    (h : parseStep c cmd = .ok d) (hs : Sized c cmd) :
    c.avaddr.toNat ≤ d.avaddr.toNat ∧
      ∀ s ∈ interval c d cmd, s ⊆ Set.Ico (c.avaddr.toNat : Int) d.avaddr.toNat := by
  obtain ⟨a, ha, htakes⟩ := (parseStep_ok hcmd).mp h
  rw [takes_avaddr ha htakes, interval_eq ha htakes]
  split_ifs with hauto
  · obtain ⟨hlt, hpos, hle⟩ := hs hauto
    have hadv : (advanceOf cmd).toInt = (advanceOf cmd).toNat := by
      rw [BitVec.toInt_eq_toNat_cond] at hpos ⊢
      have := (advanceOf cmd).isLt
      split_ifs at hpos ⊢ <;> omega
    have hsum : (c.avaddr + advanceOf cmd).toNat = c.avaddr.toNat + (advanceOf cmd).toNat := by
      have hbound := BitVec.toInt_lt (x := advanceOf cmd)
      rw [BitVec.toNat_add]
      apply Nat.mod_eq_of_lt
      omega
    have haddr : (c.avaddr.setWidth 32).toNat = c.avaddr.toNat := by
      rw [BitVec.toNat_setWidth, Nat.mod_eq_of_lt hlt]
    refine ⟨by omega, ?_⟩
    rintro s ⟨⟩
    rw [haddr]
    apply Set.Ico_subset_Ico le_rfl
    omega
  · exact ⟨le_rfl, nofun⟩

/-- Lines that meet the condition put their intervals one behind the other. -/
theorem intervals_apart {cmds : List Lexcmd} {c : Asmchip32}
    (hcmds : ∀ cmd ∈ cmds, WellLexed cmd) (hs : Along parseStep Sized cmds c) :
    (intervals c cmds).Pairwise Disjoint ∧
      ∀ s ∈ intervals c cmds, s ⊆ Set.Ici (c.avaddr.toNat : Int) := by
  induction cmds generalizing c with
  | nil => exact ⟨.nil, nofun⟩
  | cons cmd cmds ih =>
    cases hstep : parseStep c cmd with
    | error e => simp [intervals, hstep]
    | ok d =>
      obtain ⟨hle, hint⟩ := step_sized (hcmds cmd (by simp)) hstep hs.1
      obtain ⟨hpair, hlow⟩ := ih (fun x hx => hcmds x (by simp [hx])) (hs.2 d hstep)
      have hcons : intervals c (cmd :: cmds) =
          (interval c d cmd).toList ++ intervals d cmds := by simp [intervals, hstep]
      rw [hcons]
      constructor
      · rw [List.pairwise_append]
        refine ⟨?_, hpair, ?_⟩
        · cases interval c d cmd <;> simp
        · intro s hs t ht
          apply Set.disjoint_of_subset (hint s (Option.mem_toList.mp hs)) (hlow t ht)
          rw [Set.disjoint_left]
          intro r hr hr'
          simp only [Set.mem_Ico, Set.mem_Ici] at hr hr'
          omega
      · intro s hs
        rcases List.mem_append.mp hs with hs | hs
        · exact (hint s (Option.mem_toList.mp hs)).trans fun r hr => hr.1
        · refine (hlow s hs).trans fun r hr => ?_
          simp only [Set.mem_Ici] at hr ⊢
          omega

theorem run_avaddr {cmds : List Lexcmd} {c d : Asmchip32} (hcmds : ∀ cmd ∈ cmds, WellLexed cmd)
    (hauto : ∀ cmd ∈ cmds, ¬ IsAuto cmd) (h : run parseStep cmds c = .ok d) :
    d.avaddr = c.avaddr := by
  have hlines : ∀ cmd ∈ cmds, WellLexed cmd ∧ ¬ IsAuto cmd := fun cmd hcmd =>
    ⟨hcmds cmd hcmd, hauto cmd hcmd⟩
  apply run_invariant parseStep (I := fun d => d.avaddr = c.avaddr) _ hlines rfl h
  rintro d cmd e ⟨hcmd, hauto⟩ hd he
  obtain ⟨a, ha, htakes⟩ := (parseStep_ok hcmd).mp he
  rw [takes_avaddr ha htakes, if_neg hauto, hd]

/-- Two automatic variables declared one after the other, any other lines between. -/
structure Neighbours (c d e f : Asmchip32) (cmd : Lexcmd) (between : List Lexcmd)
    (cmd' : Lexcmd) : Prop where
  lexed : ∀ x ∈ cmd :: (between ++ [cmd']), WellLexed x
  auto : IsAuto cmd ∧ IsAuto cmd' ∧ ∀ x ∈ between, ¬ IsAuto x
  run : parseStep c cmd = .ok d ∧ run parseStep between d = .ok e ∧ parseStep e cmd' = .ok f
  /-- Neither is empty, and the addresses do not wrap. -/
  cells : 0 < wanted cmd ∧ 0 < wanted cmd'
  fits : 0 ≤ (advanceOf cmd).toInt ∧ c.avaddr.toNat + (advanceOf cmd).toNat < 2 ^ 32

/-- They are disjoint exactly when the first one's size is not more than its advance. -/
theorem neighbours_disjoint_iff {c d e f : Asmchip32} {cmd cmd' : Lexcmd} {between : List Lexcmd}
    (h : Neighbours c d e f cmd between cmd') :
    (∃ s t, interval c d cmd = some s ∧ interval e f cmd' = some t ∧ Disjoint s t) ↔
      wanted cmd ≤ (advanceOf cmd).toInt := by
  obtain ⟨hlexed, ⟨hauto, hauto', hnone⟩, ⟨hstep, hrun, hstep'⟩, ⟨hpos, hpos'⟩, hnn, hfits⟩ := h
  obtain ⟨a, ha, htakes⟩ := (parseStep_ok (hlexed cmd (by simp))).mp hstep
  obtain ⟨a', ha', htakes'⟩ := (parseStep_ok (hlexed cmd' (by simp))).mp hstep'
  have he : e.avaddr = c.avaddr + advanceOf cmd := by
    rw [run_avaddr (fun x hx => hlexed x (by simp [hx])) hnone hrun, takes_avaddr ha htakes,
      if_pos hauto]
  have hadv : (advanceOf cmd).toInt = (advanceOf cmd).toNat := by
    rw [BitVec.toInt_eq_toNat_cond] at hnn ⊢
    have := (advanceOf cmd).isLt
    split_ifs at hnn ⊢ <;> omega
  have hlo : (c.avaddr.setWidth 32).toNat = c.avaddr.toNat := by
    rw [BitVec.toNat_setWidth, Nat.mod_eq_of_lt (by omega)]
  have hlo' : (e.avaddr.setWidth 32).toNat = c.avaddr.toNat + (advanceOf cmd).toNat := by
    rw [he, BitVec.toNat_setWidth, BitVec.toNat_add, Nat.mod_eq_of_lt (by omega),
      Nat.mod_eq_of_lt (by omega)]
  rw [interval_eq ha htakes, interval_eq ha' htakes', if_pos hauto, if_pos hauto', hlo, hlo']
  simp only [Option.some.injEq, exists_and_left, exists_eq_left', Set.Ico_disjoint_Ico]
  omega

theorem intervals_append {front cmds : List Lexcmd} {c d : Asmchip32}
    (h : run parseStep front c = .ok d) :
    intervals c (front ++ cmds) = intervals c front ++ intervals d cmds := by
  induction front generalizing c with
  | nil =>
    cases h
    rfl
  | cons cmd front ih =>
    obtain ⟨e, he, h⟩ := bind_eq_ok.mp h
    simp only [List.cons_append, intervals, he, ih h, List.append_assoc]

theorem intervals_cons {c d : Asmchip32} {cmd : Lexcmd} {cmds : List Lexcmd} {s : Set Int}
    (h : parseStep c cmd = .ok d) (hs : interval c d cmd = some s) :
    intervals c (cmd :: cmds) = s :: intervals d cmds := by
  simp [intervals, h, hs]

/-- Automatic storage: where every declaration with `?` moves the next address on by
at least its size, no two automatic variables overlap and none reaches the
registers; and they only stay apart if those do that a neighbour follows. For a source
that is rejected, this is about the lines in front of the wrong one. -/
theorem storage_apart (code : Text) (lexed : Asmchip32) (hlex : lexer (.new code) = .ok lexed) :
    (Along parseStep Sized lexed.vcmd lexed → Apart (intervals lexed lexed.vcmd)) ∧
      ∀ (front between behind : List Lexcmd) (cmd cmd' : Lexcmd) (c d e f : Asmchip32),
        lexed.vcmd = front ++ cmd :: (between ++ cmd' :: behind) →
        run parseStep front lexed = .ok c → Neighbours c d e f cmd between cmd' →
        Apart (intervals lexed lexed.vcmd) → wanted cmd ≤ (advanceOf cmd).toInt := by
  constructor
  · intro hs
    obtain ⟨hpair, hlow⟩ := intervals_apart (lexer_wellLexed hlex) hs
    rw [(lexer_keeps hlex).2.1] at hlow
    exact ⟨hpair, hlow⟩
  · intro front between behind cmd cmd' c d e f hlines hfront hnext hapart
    obtain ⟨hstep, hbetween, hstep'⟩ := hnext.run
    apply (neighbours_disjoint_iff hnext).mp
    obtain ⟨s, hs⟩ := interval_auto (hnext.lexed cmd (by simp)) hstep hnext.auto.1
    obtain ⟨t, ht⟩ := interval_auto (hnext.lexed cmd' (by simp)) hstep' hnext.auto.2.1
    refine ⟨s, t, hs, ht, ?_⟩
    -- both intervals stand in the list, the first one before the second
    rw [hlines, intervals_append hfront, intervals_cons hstep hs, intervals_append hbetween,
      intervals_cons hstep' ht] at hapart
    obtain ⟨-, hpair, -⟩ := List.pairwise_append.mp hapart.1
    exact (List.pairwise_cons.mp hpair).1 t (by simp)

/-- A string one cell shorter than its size, and a variable behind it. -/
def threeCells : Text := "declare s, ?, 3, \"ab\"\ndeclare y, ?\n".toList

theorem storage_apart_string :
    Apart (intervals (final (lexer (.new threeCells))) (final (lexer (.new threeCells))).vcmd) :=
  (storage_apart threeCells _ (ok_final (by decide +kernel))).1 (by decide +kernel)

/-- The size of `x` is 4, but its next address is taken from the `2` behind it. -/
def fourCells : Text := "declare x, ?, 4, 2, 7, 9\ndeclare y, ?\n".toList

def fourLexed : Asmchip32 := final (lexer (.new fourCells))

theorem fourCells_intervals :
    intervals fourLexed fourLexed.vcmd = [Set.Ico 35 39, Set.Ico 37 38] := by
  rfl

theorem fourCells_overlap :
    ∃ built, lexer (.new fourCells) = .ok fourLexed ∧ build fourCells = .ok built ∧
      ¬ Apart (intervals fourLexed fourLexed.vcmd) := by
  refine ⟨final (build fourCells), ok_final (by decide +kernel), ok_final (by decide +kernel), ?_⟩
  rintro ⟨hpair, _⟩
  rw [fourCells_intervals, List.pairwise_pair, Set.Ico_disjoint_Ico] at hpair
  omega

end Asm
