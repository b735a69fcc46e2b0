import Chip32.Alike
import Chip32.Names
import Chip32.Respelling

/-!
# Renaming variables

With its variables renamed a source is assembled to the same commands. The parser
looks at the names only to compare them, and reads numbers, characters and strings
from places that the names do not reach.
-/
namespace Asm

open Runs Vm Grammar

/-- A name in the table that is no label. -/
def IsVariable (c : Asmchip32) (name : List Char) : Prop :=
  (declareFind c.declare name).map Declared.type = some .literalNum

instance (c : Asmchip32) (name : List Char) : Decidable (IsVariable c name) :=
  inferInstanceAs (Decidable (_ = _))

/-- An injective renaming of the variables of `built` to names that can be declared and
are no labels. -/
structure Renaming (lines : List Lexcmd) (built : Asmchip32) where
  new : List Char → Ident
  injective : ∀ x y, IsVariable built x → IsVariable built y → (new x).text = (new y).text → x = y
  short : ∀ x, IsVariable built x → (new x).text.length ≤ rbhKey
  apart : ∀ x, IsVariable built x → (new x).text ∉ lines.flatMap labels

section

variable {lines : List Lexcmd} {built : Asmchip32}

/-- The new name of a variable, and any other name itself. -/
def Renaming.name (f : Renaming lines built) (x : List Char) : List Char :=
  if IsVariable built x then (f.new x).text else x

/-- The names behind label and command name are renamed. -/
def Renaming.line (f : Renaming lines built) (cmd : Lexcmd) : List Spelling :=
  cmd.mapIdx fun i tk =>
    (tk, if firstPos cmd ≤ i ∧ tk.type = .name then f.name tk.text else tk.text)

/-- The source with its variables renamed. -/
def Renaming.source (f : Renaming lines built) (code : Text) : Text :=
  respell code (lines.flatMap f.line)

variable {f : Renaming lines built}

theorem fair_line (cmd : Lexcmd) : ∀ x ∈ f.line cmd, x.Fair := by
  intro x hx
  obtain ⟨i, hi, rfl⟩ := List.mem_mapIdx.mp hx
  simp only [Spelling.Fair, Renaming.name]
  split_ifs with hname hvar
  · exact .inr ⟨hname.2, f.new cmd[i].text, rfl⟩
  · exact .inl rfl
  · exact .inl rfl

/-- A line and the renamed one. -/
structure Renamed (f : Renaming lines built) (cmd cmd' : Lexcmd) : Prop where
  shapes : shapes cmd' = (f.line cmd).map Spelling.shape
  lexed : ∀ tk ∈ cmd, Lexed tk
  lexed' : ∀ tk ∈ cmd', Lexed tk
  well : WellLexed cmd
  well' : WellLexed cmd'

variable {cmd cmd' : Lexcmd}

/-- Each token has its counterpart. -/
theorem Renamed.at (h : Renamed f cmd cmd') {i : Nat} {tk : Lextoken} (htk : cmd[i]? = some tk) :
    ∃ tk', cmd'[i]? = some tk' ∧ Alike tk tk' ∧
      tk'.text = if firstPos cmd ≤ i ∧ tk.type = .name then f.name tk.text else tk.text := by
  have hi := congrArg (·[i]?) h.shapes
  simp only [Asm.shapes, Renaming.line, List.getElem?_map, List.getElem?_mapIdx, htk,
    Option.map_some] at hi
  obtain ⟨tk', htk', heq⟩ := Option.map_eq_some_iff.mp hi
  rw [Spelling.shape, Prod.mk.injEq] at heq
  refine ⟨tk', htk', ?_, heq.2⟩
  apply (h.lexed tk (List.mem_of_getElem? htk)).alike (h.lexed' tk' (List.mem_of_getElem? htk'))
    heq.1
  intro hne
  rw [heq.2, if_neg fun h => hne h.2]

theorem Renamed.alike (h : Renamed f cmd cmd') : AlikeLines cmd cmd' := by
  refine alikeLines_of_at ?_ fun i tk htk => ?_
  · simpa [Renaming.line] using congrArg List.length h.shapes
  · obtain ⟨tk', htk', halike, _⟩ := h.at htk
    exact ⟨tk', htk', halike⟩

theorem Renamed.labelOf_eq (h : Renamed f cmd cmd') : labelOf cmd' = labelOf cmd := by
  obtain ⟨tk, rest, rfl⟩ := List.exists_cons_of_ne_nil h.well.ne_nil
  obtain ⟨tk', htk', halike, htext⟩ := h.at (i := 0) rfl
  have hfirst : ¬ firstPos (tk :: rest) ≤ 0 := by
    unfold firstPos
    split_ifs <;> omega
  rw [if_neg fun h => hfirst h.1] at htext
  cases cmd' with
  | nil => cases htk'
  | cons tk'' rest' =>
    cases htk'
    simp only [labelOf, halike.type, htext]

theorem Renamed.firstPos_eq (h : Renamed f cmd cmd') : firstPos cmd' = firstPos cmd := by
  rw [firstPos, firstPos, h.labelOf_eq]

theorem Renamed.actionOf_eq (h : Renamed f cmd cmd') : actionOf cmd' = actionOf cmd := by
  unfold actionOf
  rw [h.labelOf_eq]
  have hlt : ¬ firstPos cmd ≤ if (labelOf cmd).isSome then 1 else 0 := by
    unfold firstPos
    split_ifs <;> omega
  cases htk : cmd[if (labelOf cmd).isSome then 1 else 0]? with
  | none => rw [h.alike.none htk]
  | some tk =>
    obtain ⟨tk', htk', _, htext⟩ := h.at htk
    rw [if_neg fun h => hlt h.1] at htext
    rw [htk', Option.bind_some, Option.bind_some, htext]

/-- The two states behind the same lines. A label that the old table refuses because a
variable has its name may be in the new one. -/
structure Follows (f : Renaming lines built) (c d : Asmchip32) : Prop where
  mc : d.mc = c.mc
  avaddr : d.avaddr = c.avaddr
  count : d.vcmd.length = c.vcmd.length
  found : ∀ x dec, declareFind c.declare x = some dec →
    ∃ dec', declareFind d.declare (f.name x) = some dec' ∧ dec'.addr = dec.addr
  taken : ∀ y ∈ known d, y ∈ known c ∧ y ∈ lines.flatMap labels ∨
    ∃ x, IsVariable built x ∧ x ∈ known c ∧ y = (f.new x).text

variable {c d : Asmchip32}

theorem Follows.fresh_label (h : Follows f c d) {l : List Char} (hl : l ∈ lines.flatMap labels)
    (hf : Fresh c.declare l) : Fresh d.declare l := by
  refine ⟨declareFind_eq_none.mpr fun hmem => ?_, hf.2⟩
  rcases h.taken l hmem with ⟨hc, _⟩ | ⟨x, hx, _, rfl⟩
  · exact declareFind_eq_none.mp hf.1 hc
  · exact f.apart x hx hl

theorem Follows.fresh_variable (h : Follows f c d) {x : List Char} (hx : IsVariable built x)
    (hf : Fresh c.declare x) : Fresh d.declare (f.new x).text := by
  refine ⟨declareFind_eq_none.mpr fun hmem => ?_, f.short x hx⟩
  rcases h.taken _ hmem with ⟨_, hl⟩ | ⟨y, hy, hc, heq⟩
  · exact f.apart x hx hl
  · cases f.injective x y hx hy heq
    exact declareFind_eq_none.mp hf.1 hc

/-- The value of an operand is the same in both tables. -/
theorem Follows.valueOf (h : Follows f c d) {tk tk' : Lextoken} (halike : Alike tk tk')
    (htext : tk.type = .name → tk'.text = f.name tk.text) {v : Word}
    (hv : valueOf c.declare tk = some v) : valueOf d.declare tk' = some v := by
  unfold Asm.valueOf at hv ⊢
  rw [halike.type]
  cases htype : tk.type with
  | literalNum =>
    simp only [htype] at hv
    rw [← hv, number, number, halike.value]
  | name =>
    simp only [htype] at hv
    obtain ⟨dec, hdec, rfl⟩ := Option.map_eq_some_iff.mp hv
    obtain ⟨dec', hdec', haddr⟩ := h.found tk.text dec hdec
    simp only [htext htype, hdec', Option.map_some, haddr]
  | _ => simp [htype] at hv

theorem Follows.isRvalue (h : Follows f c d) (hcmd : Renamed f cmd cmd') {ic q : Nat}
    {m : Option Mode} {v : Word} (hic : firstPos cmd ≤ ic)
    (hr : IsRvalue c.declare cmd ic m q v) : IsRvalue d.declare cmd' ic m q v := by
  obtain ⟨hpos, tk, htk, hv⟩ := hr
  obtain ⟨tk', htk', halike, htext⟩ := hcmd.at htk
  have hq : ic ≤ q := by
    obtain ⟨s, _, hs⟩ := Option.map_eq_some_iff.mp hpos
    split at hs <;> cases hs <;> omega
  refine ⟨by rwa [hcmd.alike.rvaluePos_eq], tk', htk', h.valueOf halike (fun htype => ?_) hv⟩
  rw [htext, if_pos ⟨hic.trans hq, htype⟩]

theorem Follows.isLvalue (h : Follows f c d) (hcmd : Renamed f cmd cmd') {ic : Nat} {m : Mode}
    {tk : Lextoken} {v : Word} (hic : firstPos cmd ≤ ic)
    (hl : IsLvalue c.declare cmd ic m tk v) : ∃ tk', IsLvalue d.declare cmd' ic m tk' v := by
  obtain ⟨hm, htk, hv⟩ := hl
  obtain ⟨tk', htk', halike, htext⟩ := hcmd.at htk
  refine ⟨tk', ?_, htk', h.valueOf halike (fun htype => ?_) hv⟩
  · rw [← hm]
    cases hs : cmd[ic]? with
    | none => rw [hcmd.alike.none hs]
    | some s =>
      obtain ⟨s', hs', halike, _⟩ := hcmd.at hs
      rw [hs', Option.map_some, Option.map_some, halike.type]
  · rw [htext, if_pos ⟨hic.trans (Nat.le_succ _), htype⟩]

theorem Follows.abreast (h : Follows f c d) : Abreast c d := ⟨h.mc, h.avaddr, h.count⟩

theorem Follows.of_same (h : Follows f c d) {c' d' : Asmchip32} (hc : c'.declare = c.declare)
    (hd : d'.declare = d.declare) (hk : Abreast c' d') : Follows f c' d' where
  mc := hk.mc
  avaddr := hk.avaddr
  count := hk.count
  found := by
    rw [hc, hd]
    exact h.found
  taken := by
    rw [known, known, hc, hd]
    exact h.taken

theorem Follows.add (h : Follows f c d) (x x' : Declared) (hname : x'.name = f.name x.name)
    (haddr : x'.addr = x.addr) (hfresh : declareFind d.declare x'.name = none)
    (hlabel : ¬ IsVariable built x.name → x.name ∈ lines.flatMap labels) :
    Follows f { c with declare := c.declare ++ [x] } { d with declare := d.declare ++ [x'] } where
  mc := h.mc
  avaddr := h.avaddr
  count := h.count
  found := by
    intro y dec hdec
    simp only [declareFind_snoc] at hdec ⊢
    cases hy : declareFind c.declare y with
    | some dec₀ =>
      obtain ⟨dec', hdec', ha⟩ := h.found y dec₀ hy
      rw [hy, Option.some_or] at hdec
      cases hdec
      exact ⟨dec', by rw [hdec', Option.some_or], ha⟩
    | none =>
      rw [hy, Option.none_or] at hdec
      split_ifs at hdec with hx
      cases hdec
      subst hx
      rw [← hname, hfresh, if_pos rfl, Option.none_or]
      exact ⟨x', rfl, haddr⟩
  taken := by
    intro y hy
    simp only [known, List.map_append, List.map_singleton, List.mem_append,
      List.mem_singleton] at hy ⊢
    rcases hy with hy | rfl
    · rcases h.taken y hy with ⟨hc, hl⟩ | ⟨z, hz, hc, rfl⟩
      · exact .inl ⟨.inl hc, hl⟩
      · exact .inr ⟨z, hz, .inl hc, rfl⟩
    · rw [hname, Renaming.name]
      split_ifs with hx
      · exact .inr ⟨x.name, hx, .inr rfl, rfl⟩
      · exact .inl ⟨.inr rfl, hlabel hx⟩

theorem Follows.addLabel (h : Follows f c d) (hcmd : Renamed f cmd cmd')
    (hmem : ∀ l ∈ labelOf cmd, l ∈ lines.flatMap labels) (hf : LabelFresh c.declare cmd)
    (hx : Extends (addLabel c cmd) built) :
    LabelFresh d.declare cmd' ∧ Follows f (addLabel c cmd) (addLabel d cmd') := by
  unfold LabelFresh Asm.addLabel
  unfold LabelFresh at hf
  unfold Asm.addLabel at hx
  rw [hcmd.labelOf_eq]
  cases hl : labelOf cmd with
  | none =>
    refine ⟨nofun, ?_⟩
    exact h.of_same (by simp) (by simp) ⟨h.mc, h.avaddr, h.count⟩
  | some l =>
    have hfresh := hf l hl
    have hfresh' := h.fresh_label (hmem l hl) hfresh
    rw [hl] at hx
    have hvar : ¬ IsVariable built l := by
      have hfound : declareFind built.declare l =
          some ⟨.label, BitVec.ofNat 32 c.vcmd.length, l⟩ :=
        find_extends hx (by simp [declareFind_snoc, hfresh.1])
      simp [IsVariable, hfound]
    have hname : f.name l = l := if_neg hvar
    refine ⟨?_, h.add _ _ hname.symm (by simp [h.count]) hfresh'.1 fun _ => hmem l hl⟩
    rintro _ ⟨⟩
    exact hfresh'

theorem Follows.emit (h : Follows f c d) (m : Command) : Follows f (c.emit m) (d.emit m) :=
  h.of_same rfl rfl (h.abreast.emit m)

theorem Follows.markLabel (h : Follows f c d) (tk tk' : Lextoken) :
    Follows f (markLabel c tk) (markLabel d tk') :=
  h.of_same (markLabel_declare c tk) (markLabel_declare d tk') (h.abreast.markLabel tk tk')

/-- Only the new table takes the label. -/
theorem Follows.late (h : Follows f c d) (hmem : ∀ l ∈ labelOf cmd, l ∈ lines.flatMap labels)
    (hlabel : labelOf cmd' = labelOf cmd) (hf : ¬ LabelFresh c.declare cmd)
    (hf' : LabelFresh d.declare cmd') : Follows f c (Asm.addLabel d cmd') where
  mc := h.mc
  avaddr := h.avaddr
  count := h.count
  found := by
    intro x dec hdec
    obtain ⟨dec', hdec', ha⟩ := h.found x dec hdec
    exact ⟨dec', find_extends (extends_addLabel d cmd') hdec', ha⟩
  taken := by
    intro y hy
    rw [known_addLabel, List.mem_append] at hy
    rcases hy with hy | hy
    · exact h.taken y hy
    · have hl := Option.mem_toList.mp hy
      have hfresh := hf' y hl
      rw [hlabel] at hl
      refine .inl ⟨?_, hmem y hl⟩
      by_contra hn
      refine hf fun l hl' => ?_
      cases hl.symm.trans hl'
      exact ⟨declareFind_eq_none.mpr hn, hfresh.2⟩

theorem Follows.tryLabel (h : Follows f c d) (hcmd : Renamed f cmd cmd')
    (hmem : ∀ l ∈ labelOf cmd, l ∈ lines.flatMap labels)
    (hx : Extends (Asm.tryLabel c cmd) built) :
    Follows f (Asm.tryLabel c cmd) (Asm.tryLabel d cmd') := by
  by_cases hf : LabelFresh c.declare cmd
  · rw [tryLabel_fresh hf] at hx ⊢
    obtain ⟨hf', hadd⟩ := h.addLabel hcmd hmem hf hx
    rwa [tryLabel_fresh hf']
  · have hd := (tryLabel_refused hf).2.2.2
    by_cases hf' : LabelFresh d.declare cmd'
    · have hlate := h.late hmem hcmd.labelOf_eq hf hf'
      rw [tryLabel_fresh hf']
      exact hlate.of_same hd rfl ((abreast_refused hf).symm.trans hlate.abreast)
    · exact h.of_same hd (tryLabel_refused hf').2.2.2 (h.abreast.refused hf hf')

theorem Follows.takesOne {e : Asmchip32} {m : BitVec 8 → Word → Command} (h : Follows f c d)
    (hcmd : Renamed f cmd cmd') (hmem : ∀ l ∈ labelOf cmd, l ∈ lines.flatMap labels)
    (htakes : TakesOne m c cmd e) (hx : Extends e built) :
    ∃ e', TakesOne m d cmd' e' ∧ Follows f e e' := by
  obtain ⟨hf, mode, q, v, hr, rfl⟩ := htakes
  obtain ⟨hf', hadd⟩ := h.addLabel hcmd hmem hf ((extends_emit _ _).trans hx)
  have hr' := hadd.isRvalue hcmd le_rfl hr
  rw [← hcmd.firstPos_eq] at hr'
  exact ⟨_, ⟨hf', mode, q, v, hr', rfl⟩, hadd.emit _⟩

theorem Follows.takesTwo {e : Asmchip32} {m : BitVec 8 → Word → Word → Command}
    (h : Follows f c d) (hcmd : Renamed f cmd cmd')
    (hmem : ∀ l ∈ labelOf cmd, l ∈ lines.flatMap labels) (htakes : TakesTwo m c cmd e)
    (hx : Extends e built) : ∃ e', TakesTwo m d cmd' e' ∧ Follows f e e' := by
  obtain ⟨hf, mode, tk, v, mode', q, w, hl, hr, rfl⟩ := htakes
  have hx' : Extends (Asm.addLabel c cmd) built :=
    ((extends_markLabel _ tk).trans (extends_emit _ _)).trans hx
  obtain ⟨hf', hadd⟩ := h.addLabel hcmd hmem hf hx'
  obtain ⟨tk', hl'⟩ := hadd.isLvalue hcmd le_rfl hl
  have hr' := hadd.isRvalue hcmd (Nat.le_add_right _ 2) hr
  rw [← hcmd.firstPos_eq] at hl' hr'
  exact ⟨_, ⟨hf', mode, tk', v, mode', q, w, hl', hr', rfl⟩, (hadd.markLabel tk tk').emit _⟩

theorem Follows.stored (h : Follows f c d) (addr : Word) (dauto : Bool) (n : BitVec 64)
    (vs : List Word) : Follows f (stored c addr dauto n vs) (stored d addr dauto n vs) :=
  h.of_same (stored_declare ..) (stored_declare ..) (h.abreast.stored addr dauto n vs)

theorem Follows.takesDeclare {e : Asmchip32} (h : Follows f c d) (hcmd : Renamed f cmd cmd')
    (hlabel : labelOf cmd = none) (htakes : TakesDeclare c cmd e) (hx : Extends e built) :
    ∃ e', TakesDeclare d cmd' e' ∧ Follows f e e' := by
  obtain ⟨tk, pl, addr, dauto, n, vs, htk, hname, hpl, hplace, hst, hf, rfl⟩ := htakes
  obtain ⟨tk', htk', halike, htext⟩ := hcmd.at htk
  obtain ⟨pl', hpl', halike', _⟩ := hcmd.at hpl
  have hfirst : firstPos cmd = 1 := by simp [firstPos, hlabel]
  have hvar : IsVariable built tk.text := by
    have hfound : declareFind built.declare tk.text = some ⟨.literalNum, addr, tk.text⟩ :=
      find_extends hx (by simp [declareFind_snoc, hf.1])
    simp [IsVariable, hfound]
  rw [if_pos ⟨hfirst.le, hname⟩] at htext
  have hnew : f.name tk.text = (f.new tk.text).text := if_pos hvar
  have hfresh : Fresh d.declare tk'.text := by
    rw [htext, hnew]
    exact h.fresh_variable hvar hf
  have hadd := (h.stored addr dauto n vs).add ⟨.literalNum, addr, tk.text⟩
    ⟨.literalNum, addr, tk'.text⟩ htext rfl (by rw [stored_declare]; exact hfresh.1)
    fun hn => absurd hvar hn
  simp only [stored_declare] at hadd
  exact ⟨_, ⟨tk', pl', addr, dauto, n, vs, htk', halike.type.trans hname, hpl',
    (place_alike h.avaddr halike halike').trans hplace, hcmd.alike.storage hst, hfresh, rfl⟩, hadd⟩

/-- Whatever line is accepted, the renamed one is. -/
theorem Follows.takes {a : Action} {e : Asmchip32} (h : Follows f c d) (hcmd : Renamed f cmd cmd')
    (hmem : ∀ l ∈ labelOf cmd, l ∈ lines.flatMap labels) (hdeclare : a = .declare → labelOf cmd = none)
    (htakes : a.Takes c cmd e) (hx : Extends e built) : ∃ e', a.Takes d cmd' e' ∧ Follows f e e' := by
  cases a with
  | declare => exact h.takesDeclare hcmd (hdeclare rfl) htakes hx
  | initr =>
    obtain ⟨hf, tk, htk, ht, rfl⟩ := htakes
    obtain ⟨hf', hadd⟩ := h.addLabel hcmd hmem hf ((extends_emit _ _).trans hx)
    obtain ⟨tk', htk', halike, _⟩ := hcmd.at htk
    rw [← hcmd.firstPos_eq] at htk'
    refine ⟨_, ⟨hf', tk', htk', halike.type.trans ht, rfl⟩, ?_⟩
    rw [number, number, halike.value]
    exact hadd.emit _
  | noarg op =>
    cases htakes
    exact ⟨_, rfl, (h.tryLabel hcmd hmem ((extends_emit _ _).trans hx)).emit _⟩
  | onearg op | jmpi =>
    simp only [Action.Takes, h.abreast.mccount] at htakes ⊢
    exact h.takesOne hcmd hmem htakes hx
  | twoarg op | branch op =>
    simp only [Action.Takes, h.abreast.mccount] at htakes ⊢
    exact h.takesTwo hcmd hmem htakes hx

/-- The lines of a source and those of the renamed one. -/
theorem run_renamed {cmds cmds' : List Lexcmd} (h : Follows f c d)
    (hcmds : List.Forall₂ (Renamed f) cmds cmds') (hmem : ∀ cmd ∈ cmds, cmd ∈ lines)
    (hwell : ∀ cmd ∈ lines, WellLexed cmd)
    (hdeclare : ∀ cmd ∈ cmds, actionOf cmd = some .declare → labelOf cmd = none)
    (hrun : run parseStep cmds c = .ok built) :
    ∃ e, run parseStep cmds' d = .ok e ∧ e.mc = built.mc := by
  induction hcmds generalizing c d with
  | nil =>
    cases hrun
    exact ⟨d, rfl, h.mc⟩
  | @cons cmd cmd' cmds cmds' hcmd hcmds ih =>
    obtain ⟨e, he, hrun⟩ := bind_eq_ok.mp hrun
    obtain ⟨a, ha, htakes⟩ := (parseStep_ok hcmd.well).mp he
    have hlabels : ∀ l ∈ labelOf cmd, l ∈ lines.flatMap labels := by
      intro l hl
      refine List.mem_flatMap.mpr ⟨cmd, hmem cmd (by simp), ?_⟩
      rw [Asm.labelOf_eq] at hl
      exact List.mem_of_mem_head? hl
    have hx : Extends e built :=
      run_extends (fun x hx => hwell x (hmem x (List.mem_cons_of_mem cmd hx))) hrun
    obtain ⟨e', htakes', h'⟩ := h.takes hcmd hlabels
      (fun hd => hdeclare cmd (by simp) (ha.trans (congrArg some hd))) htakes hx
    obtain ⟨r, hr, hmc⟩ := ih h' (fun x hx => hmem x (by simp [hx]))
      (fun x hx => hdeclare x (by simp [hx])) hrun
    refine ⟨r, ?_, hmc⟩
    rw [run_cons, (parseStep_ok hcmd.well').mpr ⟨a, hcmd.actionOf_eq.trans ha, htakes'⟩, ok_bind]
    exact hr

end

/-- The lexer reads the renamed source as the renamed lines. -/
theorem lexer_renamed {code : Text} {lexed built : Asmchip32}
    (hlex : lexer (.new code) = .ok lexed) (f : Renaming lexed.vcmd built) :
    ∃ d, lexer (.new (f.source code)) = .ok d ∧ List.Forall₂ (Renamed f) lexed.vcmd d.vcmd := by
  have hfst : (lexed.vcmd.map f.line).map (List.map Prod.fst) = lexed.vcmd := by
    have hline : ∀ cmd, (f.line cmd).map Prod.fst = cmd := by
      intro cmd
      apply List.ext_getElem?
      intro i
      simp [Renaming.line, Function.comp_def]
    simp [hline, Function.comp_def]
  have hfair : ∀ xs ∈ lexed.vcmd.map f.line, ∀ x ∈ xs, x.Fair :=
    List.forall_mem_map.mpr fun cmd _ => fair_line cmd
  obtain ⟨d, hd, hmap⟩ := lexer_respell hlex hfst hfair
  rw [← List.flatMap_def] at hd
  refine ⟨d, hd, List.forall₂_iff_zip.mpr ⟨?_, fun {cmd cmd'} hzip => ?_⟩⟩
  · simpa using (congrArg List.length hmap).symm
  · obtain ⟨hcmd, hcmd'⟩ := List.of_mem_zip hzip
    refine ⟨?_, lexer_lexed hlex cmd hcmd, lexer_lexed hd cmd' hcmd', lexer_wellLexed hlex cmd hcmd,
      lexer_wellLexed hd cmd' hcmd'⟩
    obtain ⟨i, hi⟩ := List.mem_iff_getElem?.mp hzip
    obtain ⟨hi, hi'⟩ := List.getElem?_zip_eq_some.mp hi
    simpa [hi, hi'] using congrArg (·[i]?) hmap

/-- Renaming the variables of an accepted source does not change its commands. A
declaration that stops behind its size reads a token that is not there and is not
accepted. -/
theorem renaming_keeps_code {code : Text} {lexed built : Asmchip32}
    (hlex : lexer (.new code) = .ok lexed) (hbuild : build code = .ok built)
    (hdeclare : ∀ cmd ∈ lexed.vcmd, actionOf cmd = some .declare → labelOf cmd = none)
    (f : Renaming lexed.vcmd built) :
    ∃ built', build (f.source code) = .ok built' ∧ built'.mc = built.mc := by
  obtain ⟨d, hd, hcmds⟩ := lexer_renamed hlex f
  obtain ⟨hmc, hav, hdec, _⟩ := lexer_keeps hlex
  obtain ⟨hmc', hav', hdec', _⟩ := lexer_keeps hd
  have hstart : Follows f lexed d := {
    mc := hmc'.trans hmc.symm
    avaddr := hav'.trans hav.symm
    count := hcmds.length_eq.symm
    found := by
      intro x dec h
      rw [hdec] at h
      cases h
    taken := by
      intro y hy
      rw [known, hdec'] at hy
      cases hy }
  rw [build, hlex, ok_bind] at hbuild
  rw [build, hd, ok_bind]
  exact run_renamed hstart hcmds (fun _ h => h) (lexer_wellLexed hlex) hdeclare hbuild

/-- Two variables, a label, and their names in a string and in comments. -/
def swapSource : Text :=
  "initr 64\ndeclare a, ?, ?, \"a b\"\ndeclare b, ?;a\nx: move $a, b;b\njmp x\n".toList

def swapBuilt : Asmchip32 := final (build swapSource)

/-- The same with `a` and `b` exchanged. -/
def swappedSource : Text :=
  "initr 64\ndeclare b, ?, ?, \"a b\"\ndeclare a, ?;a\nx: move $b, a;b\njmp x\n".toList

theorem swap_variables {x : List Char} (h : IsVariable swapBuilt x) : x = ['a'] ∨ x = ['b'] := by
  have hall : ∀ dec ∈ swapBuilt.declare, dec.type = .literalNum →
      dec.name = ['a'] ∨ dec.name = ['b'] := by decide +kernel
  obtain ⟨dec, hdec, ht⟩ := Option.map_eq_some_iff.mp h
  obtain rfl : dec.name = x := by simpa using List.find?_some hdec
  exact hall dec (List.mem_of_find?_eq_some hdec) ht

/-- Each takes the name of the other. -/
def swap : Renaming (final (lexer (.new swapSource))).vcmd swapBuilt where
  new x := if x = ['a'] then nameB else nameA
  injective := by
    intro x y hx hy h
    rcases swap_variables hx with rfl | rfl <;> rcases swap_variables hy with rfl | rfl
    · rfl
    · exact absurd h (by decide)
    · exact absurd h (by decide)
    · rfl
  short := by
    intro x hx
    rcases swap_variables hx with rfl | rfl <;> decide
  apart := by
    intro x hx
    rcases swap_variables hx with rfl | rfl <;> decide +kernel

theorem renaming_keeps_code_swap :
    ∃ built', build swappedSource = .ok built' ∧ built'.mc = swapBuilt.mc := by
  have hsource : swap.source swapSource = swappedSource := by decide +kernel
  rw [← hsource]
  exact renaming_keeps_code (ok_final (by decide +kernel)) (ok_final (by decide +kernel))
    (by decide +kernel) swap

end Asm
