import Chip32.Alike
import Chip32.Emission

/-!
# One name more

Two runs of the parser over the same lines, at different places of two sources. If their
tables differ in one name only and no line uses it, they emit the same commands.
-/
namespace Asm

open Runs Vm Grammar

/-- The same token at another place. -/
structure Same (tk tk' : Lextoken) : Prop where
  lexed : Lexed tk
  lexed' : Lexed tk'
  type : tk'.type = tk.type
  text : tk'.text = tk.text

theorem Same.symm {tk tk' : Lextoken} (h : Same tk tk') : Same tk' tk :=
  ⟨h.lexed', h.lexed, h.type.symm, h.text.symm⟩

theorem Same.alike {tk tk' : Lextoken} (h : Same tk tk') : Alike tk tk' :=
  h.lexed.alike h.lexed' h.type fun _ => h.text

/-- The same line at another place. -/
structure Twins (cmd cmd' : Lexcmd) : Prop where
  same : List.Forall₂ Same cmd cmd'
  well : WellLexed cmd
  well' : WellLexed cmd'

/-- The names of a line that the parser may look up or declare: those of all tokens but
of a command name without a label. -/
def uses : List (Tktype × List Char) → List (List Char)
  | [] => []
  | (type, t) :: xs => if type = .label then t :: xs.map Prod.snd else xs.map Prod.snd

section Twins

variable {cmd cmd' : Lexcmd} {i : Nat} {tk : Lextoken}

theorem Twins.symm (h : Twins cmd cmd') : Twins cmd' cmd :=
  ⟨List.Forall₂.flip (h.same.imp fun _ _ hs => hs.symm), h.well', h.well⟩

theorem Twins.alike (h : Twins cmd cmd') : AlikeLines cmd cmd' := h.same.imp fun _ _ hs => hs.alike

theorem same_at {cmd cmd' : List Lextoken} (h : List.Forall₂ Same cmd cmd')
    (htk : cmd[i]? = some tk) : ∃ tk', cmd'[i]? = some tk' ∧ Same tk tk' := by
  obtain ⟨hi, rfl⟩ := List.getElem?_eq_some_iff.mp htk
  have hi' : i < cmd'.length := h.length_eq ▸ hi
  exact ⟨cmd'[i], List.getElem?_eq_getElem hi', h.get hi hi'⟩

theorem same_of_shapes (h : shapes cmd' = shapes cmd) (hcmd : ∀ tk ∈ cmd, Lexed tk)
    (hcmd' : ∀ tk ∈ cmd', Lexed tk) : List.Forall₂ Same cmd cmd' := by
  induction cmd generalizing cmd' with
  | nil =>
    cases cmd' with
    | nil => exact .nil
    | cons tk' cmd' => cases h
  | cons tk cmd ih =>
    cases cmd' with
    | nil => cases h
    | cons tk' cmd' =>
      obtain ⟨htk, hcmd⟩ := List.forall_mem_cons.mp hcmd
      obtain ⟨htk', hcmd'⟩ := List.forall_mem_cons.mp hcmd'
      obtain ⟨hhead, htail⟩ := List.cons.inj h
      obtain ⟨htype, htext⟩ := Prod.mk.inj hhead
      exact .cons ⟨htk, htk', htype, htext⟩ (ih htail hcmd hcmd')

theorem Twins.labelOf_eq (h : Twins cmd cmd') : labelOf cmd' = labelOf cmd := by
  cases h.same with
  | nil => rfl
  | cons hs _ => simp only [labelOf, hs.type, hs.text]

theorem Twins.firstPos_eq (h : Twins cmd cmd') : firstPos cmd' = firstPos cmd := by
  rw [firstPos, firstPos, h.labelOf_eq]

theorem Twins.actionOf_eq (h : Twins cmd cmd') : actionOf cmd' = actionOf cmd := by
  rw [actionOf, actionOf, h.labelOf_eq]
  cases htk : cmd[if (labelOf cmd).isSome then 1 else 0]? with
  | none => rw [h.alike.none htk]
  | some tk =>
    obtain ⟨tk', htk', hs⟩ := same_at h.same htk
    rw [htk', Option.bind_some, Option.bind_some, hs.text]

theorem mem_uses (hi : 0 < i) (htk : cmd[i]? = some tk) : tk.text ∈ uses (shapes cmd) := by
  cases cmd with
  | nil => cases htk
  | cons t cmd =>
    obtain ⟨i, rfl⟩ := Nat.exists_eq_succ_of_ne_zero (Nat.pos_iff_ne_zero.mp hi)
    have hmem : tk.text ∈ (shapes cmd).map Prod.snd := by
      simp only [shapes, List.map_map]
      exact List.mem_map_of_mem (List.mem_of_getElem? htk)
    simp only [shapes, List.map_cons, uses]
    split_ifs
    · exact List.mem_cons_of_mem _ hmem
    · exact hmem

theorem label_mem_uses {l : List Char} (h : l ∈ labelOf cmd) : l ∈ uses (shapes cmd) := by
  cases cmd with
  | nil => cases h
  | cons tk cmd =>
    rw [labelOf, Option.mem_def] at h
    split_ifs at h with ht
    cases h
    simp [shapes, uses, ht]

theorem firstPos_pos (cmd : Lexcmd) : 0 < firstPos cmd := by
  unfold firstPos
  split_ifs <;> omega

end Twins

/-- Two states that differ in the name `x` only. -/
structure Agrees (x : List Char) (c d : Asmchip32) : Prop where
  mc : d.mc = c.mc
  avaddr : d.avaddr = c.avaddr
  count : d.vcmd.length = c.vcmd.length
  found : ∀ y ≠ x, declareFind d.declare y = declareFind c.declare y

section Agrees

variable {x : List Char} {c d : Asmchip32} {cmd cmd' : Lexcmd}

theorem Agrees.symm (h : Agrees x c d) : Agrees x d c :=
  ⟨h.mc.symm, h.avaddr.symm, h.count.symm, fun y hy => (h.found y hy).symm⟩

theorem Agrees.abreast (h : Agrees x c d) : Abreast c d := ⟨h.mc, h.avaddr, h.count⟩

theorem Agrees.of_same (h : Agrees x c d) {c' d' : Asmchip32} (hc : c'.declare = c.declare)
    (hd : d'.declare = d.declare) (hk : Abreast c' d') : Agrees x c' d' where
  mc := hk.mc
  avaddr := hk.avaddr
  count := hk.count
  found := by
    rw [hc, hd]
    exact h.found

theorem Agrees.emit (h : Agrees x c d) (m : Command) : Agrees x (c.emit m) (d.emit m) :=
  h.of_same rfl rfl (h.abreast.emit m)

theorem Agrees.markLabel (h : Agrees x c d) (tk tk' : Lextoken) :
    Agrees x (markLabel c tk) (markLabel d tk') :=
  h.of_same (markLabel_declare c tk) (markLabel_declare d tk') (h.abreast.markLabel tk tk')

theorem Agrees.stored (h : Agrees x c d) (addr : Word) (dauto : Bool) (n : BitVec 64)
    (vs : List Word) : Agrees x (stored c addr dauto n vs) (stored d addr dauto n vs) :=
  h.of_same (stored_declare ..) (stored_declare ..) (h.abreast.stored addr dauto n vs)

theorem Agrees.add (h : Agrees x c d) (dec : Declared) :
    Agrees x { c with declare := c.declare ++ [dec] } { d with declare := d.declare ++ [dec] } where
  mc := h.mc
  avaddr := h.avaddr
  count := h.count
  found := by
    intro y hy
    rw [declareFind_snoc, declareFind_snoc, h.found y hy]

/-- Only the second table has the name. -/
theorem Agrees.late (h : Agrees x c d) {dec : Declared} (hdec : dec.name = x) :
    Agrees x c { d with declare := d.declare ++ [dec] } where
  mc := h.mc
  avaddr := h.avaddr
  count := h.count
  found := by
    intro y hy
    rw [declareFind_snoc, if_neg (hdec ▸ hy.symm), Option.or_none, h.found y hy]

theorem Agrees.fresh (h : Agrees x c d) {y : List Char} (hy : y ≠ x) :
    Fresh d.declare y ↔ Fresh c.declare y := by rw [Fresh, Fresh, h.found y hy]

theorem Agrees.valueOf (h : Agrees x c d) {tk tk' : Lextoken} (hs : Same tk tk')
    (hx : tk.text ≠ x) : valueOf d.declare tk' = valueOf c.declare tk := by
  unfold Asm.valueOf
  rw [hs.type]
  cases tk.type with
  | literalNum => simp only [number, hs.alike.value]
  | name => simp only [hs.text, h.found _ hx]
  | _ => rfl

end Agrees

/-- Behind label and command name, every token of the first line is in the second. -/
def Carries (cmd cmd' : Lexcmd) : Prop := ∀ (i : Nat) tk, cmd[firstPos cmd + i]? = some tk →
  ∃ tk', cmd'[firstPos cmd' + i]? = some tk' ∧ Same tk tk'

section Lines

variable {x : List Char} {c d e e' : Asmchip32} {cmd cmd' : Lexcmd}

theorem Twins.carries (h : Twins cmd cmd') : Carries cmd cmd' := by
  intro i tk htk
  rw [h.firstPos_eq]
  exact same_at h.same htk

/-- No argument is called `x`. -/
def Avoids (x : List Char) (cmd : Lexcmd) : Prop :=
  ∀ (i : Nat) tk, cmd[firstPos cmd + i]? = some tk → tk.text ≠ x

theorem avoids_of_uses (h : x ∉ uses (shapes cmd)) : Avoids x cmd := by
  rintro i tk htk rfl
  exact h (mem_uses (Nat.add_pos_left (firstPos_pos cmd) i) htk)

theorem Agrees.isRvalue (h : Agrees x c d) (hargs : Carries cmd cmd') (hx : Avoids x cmd) {j q : Nat}
    {m : Option Mode} {v : Word} (hr : IsRvalue c.declare cmd (firstPos cmd + j) m q v) :
    ∃ q', IsRvalue d.declare cmd' (firstPos cmd' + j) m q' v := by
  obtain ⟨hpos, tk, htk, hv⟩ := hr
  obtain ⟨s, hs, hpos⟩ := Option.map_eq_some_iff.mp hpos
  obtain ⟨s', hs', hsame⟩ := hargs j s hs
  have hvalue : ∀ k, cmd[firstPos cmd + k]? = some tk →
      ∃ tk', cmd'[firstPos cmd' + k]? = some tk' ∧ Asm.valueOf d.declare tk' = some v := by
    intro k hk
    obtain ⟨tk', htk', hsame⟩ := hargs k tk hk
    exact ⟨tk', htk', by rw [h.valueOf hsame (hx k tk hk), hv]⟩
  cases hm : rvalueType s.type with
  | none =>
    simp only [hm, Prod.mk.injEq] at hpos
    obtain ⟨rfl, rfl⟩ := hpos
    exact ⟨_, by simp [rvaluePos, hs', hsame.type, hm], hvalue j htk⟩
  | some mode =>
    simp only [hm, Prod.mk.injEq] at hpos
    obtain ⟨rfl, rfl⟩ := hpos
    exact ⟨_, by simp [rvaluePos, hs', hsame.type, hm, Nat.add_assoc], hvalue (j + 1) htk⟩

theorem Agrees.isLvalue (h : Agrees x c d) (hargs : Carries cmd cmd') (hx : Avoids x cmd)
    {m : Mode} {tk : Lextoken} {v : Word} (hl : IsLvalue c.declare cmd (firstPos cmd) m tk v) :
    ∃ tk', IsLvalue d.declare cmd' (firstPos cmd') m tk' v := by
  obtain ⟨hm, htk, hv⟩ := hl
  obtain ⟨tk', htk', hsame⟩ := hargs 1 tk htk
  refine ⟨tk', ?_, htk', by rw [h.valueOf hsame (hx 1 tk htk), hv]⟩
  obtain ⟨type, htype, hm⟩ := Option.bind_eq_some_iff.mp hm
  obtain ⟨s, hs, rfl⟩ := Option.map_eq_some_iff.mp htype
  obtain ⟨s', hs', hsame⟩ := hargs 0 s hs
  rw [Nat.add_zero] at hs'
  rw [hs', Option.map_some, Option.bind_some, hsame.type, hm]

/-- What the labels of the two lines leave. -/
structure Labelled (x : List Char) (c d : Asmchip32) (cmd cmd' : Lexcmd) : Prop where
  agrees : Agrees x c d
  fresh : LabelFresh d.declare cmd' ↔ LabelFresh c.declare cmd
  added : Agrees x (addLabel c cmd) (addLabel d cmd')

theorem Labelled.tryLabel (h : Labelled x c d cmd cmd') :
    Agrees x (tryLabel c cmd) (tryLabel d cmd') := by
  by_cases hf : LabelFresh c.declare cmd
  · rw [tryLabel_fresh hf, tryLabel_fresh (h.fresh.mpr hf)]
    exact h.added
  · have hf' := mt h.fresh.mp hf
    exact h.agrees.of_same (tryLabel_refused hf).2.2.2 (tryLabel_refused hf').2.2.2
      (h.agrees.abreast.refused hf hf')

theorem Labelled.takesOne {m : BitVec 8 → Word → Command} (h : Labelled x c d cmd cmd')
    (hargs : Carries cmd cmd') (hx : Avoids x cmd) (ht : TakesOne m c cmd e) :
    ∃ e', TakesOne m d cmd' e' ∧ Agrees x e e' := by
  obtain ⟨hf, mode, q, v, hr, rfl⟩ := ht
  obtain ⟨q', hr'⟩ := h.added.isRvalue hargs hx (j := 0) hr
  exact ⟨_, ⟨h.fresh.mpr hf, mode, q', v, hr', rfl⟩, h.added.emit _⟩

theorem Labelled.takesTwo {m : BitVec 8 → Word → Word → Command} (h : Labelled x c d cmd cmd')
    (hargs : Carries cmd cmd') (hx : Avoids x cmd) (ht : TakesTwo m c cmd e) :
    ∃ e', TakesTwo m d cmd' e' ∧ Agrees x e e' := by
  obtain ⟨hf, mode, tk, v, mode', q, w, hl, hr, rfl⟩ := ht
  obtain ⟨tk', hl'⟩ := h.added.isLvalue hargs hx hl
  obtain ⟨q', hr'⟩ := h.added.isRvalue hargs hx hr
  exact ⟨_, ⟨h.fresh.mpr hf, mode, tk', v, mode', q', w, hl', hr', rfl⟩,
    (h.added.markLabel tk tk').emit _⟩

/-- Any action but `declare` does the same with the same arguments. -/
theorem Labelled.takes {a : Action} (h : Labelled x c d cmd cmd') (hargs : Carries cmd cmd')
    (hx : Avoids x cmd) (ha : a ≠ .declare) (ht : a.Takes c cmd e) :
    ∃ e', a.Takes d cmd' e' ∧ Agrees x e e' := by
  have hcount := h.agrees.abreast.mccount
  cases a with
  | declare => exact absurd rfl ha
  | initr =>
    obtain ⟨hf, tk, htk, htype, rfl⟩ := ht
    obtain ⟨tk', htk', hsame⟩ := hargs 0 tk htk
    refine ⟨_, ⟨h.fresh.mpr hf, tk', htk', hsame.type.trans htype, rfl⟩, ?_⟩
    rw [number, number, hsame.alike.value]
    exact h.added.emit _
  | noarg op =>
    cases ht
    exact ⟨_, rfl, h.tryLabel.emit _⟩
  | onearg op | jmpi =>
    simp only [Action.Takes, hcount] at ht ⊢
    exact h.takesOne hargs hx ht
  | twoarg op | branch op =>
    simp only [Action.Takes, hcount] at ht ⊢
    exact h.takesTwo hargs hx ht

theorem Agrees.labelled (h : Agrees x c d) (hcmd : Twins cmd cmd') (hx : x ∉ uses (shapes cmd)) :
    Labelled x c d cmd cmd' := by
  have hlabel := @label_mem_uses cmd
  refine ⟨h, ?_, ?_⟩
  · rw [LabelFresh, LabelFresh, hcmd.labelOf_eq]
    exact forall₂_congr fun l hl => h.fresh fun he => hx (he ▸ hlabel hl)
  · rw [addLabel, addLabel, hcmd.labelOf_eq, h.count]
    cases labelOf cmd with
    | none => exact h.of_same (by simp) (by simp) ⟨h.mc, h.avaddr, h.count⟩
    | some l => exact h.add _

theorem Agrees.takesDeclare (h : Agrees x c d) (hcmd : Twins cmd cmd')
    (hx : x ∉ uses (shapes cmd)) (ht : TakesDeclare c cmd e) :
    ∃ e', TakesDeclare d cmd' e' ∧ Agrees x e e' := by
  obtain ⟨tk, pl, addr, dauto, n, vs, htk, hname, hpl, hplace, hst, hf, rfl⟩ := ht
  obtain ⟨tk', htk', hsame⟩ := same_at hcmd.same htk
  obtain ⟨pl', hpl', hsame'⟩ := same_at hcmd.same hpl
  have hne : tk.text ≠ x := fun he => hx (he ▸ mem_uses Nat.one_pos htk)
  have hadd := (h.stored addr dauto n vs).add ⟨.literalNum, addr, tk.text⟩
  simp only [stored_declare] at hadd
  refine ⟨_, ⟨tk', pl', addr, dauto, n, vs, htk', hsame.type.trans hname, hpl',
    (place_alike h.avaddr hsame.alike hsame'.alike).trans hplace, hcmd.alike.storage hst, ?_, rfl⟩, ?_⟩
  · rw [hsame.text]
    exact (h.fresh hne).mpr hf
  · rw [hsame.text]
    exact hadd

/-- A line that does not use the name does the same in both states. -/
theorem Agrees.step (h : Agrees x c d) (hcmd : Twins cmd cmd') (hx : x ∉ uses (shapes cmd))
    (hstep : parseStep c cmd = .ok e) : ∃ e', parseStep d cmd' = .ok e' ∧ Agrees x e e' := by
  obtain ⟨a, ha, ht⟩ := (parseStep_ok hcmd.well).mp hstep
  have htakes : ∃ e', a.Takes d cmd' e' ∧ Agrees x e e' := by
    by_cases hdeclare : a = .declare
    · subst hdeclare
      exact h.takesDeclare hcmd hx ht
    · exact (h.labelled hcmd hx).takes hcmd.carries (avoids_of_uses hx) hdeclare ht
  obtain ⟨e', ht', h'⟩ := htakes
  exact ⟨e', (parseStep_ok hcmd.well').mpr ⟨a, hcmd.actionOf_eq.trans ha, ht'⟩, h'⟩

theorem Agrees.run {cmds cmds' : List Lexcmd} (h : Agrees x c d)
    (hcmds : List.Forall₂ Twins cmds cmds') (hx : ∀ cmd ∈ cmds, x ∉ uses (shapes cmd))
    (hrun : run parseStep cmds c = .ok e) :
    ∃ e', run parseStep cmds' d = .ok e' ∧ Agrees x e e' := by
  induction hcmds generalizing c d with
  | nil =>
    cases hrun
    exact ⟨d, rfl, h⟩
  | @cons cmd cmd' cmds cmds' hcmd _ ih =>
    obtain ⟨t, ht, hrun⟩ := bind_eq_ok.mp hrun
    obtain ⟨hcx, hx⟩ := List.forall_mem_cons.mp hx
    obtain ⟨t', ht', h'⟩ := h.step hcmd hcx ht
    obtain ⟨e', he', h'⟩ := ih h' hx hrun
    exact ⟨e', by rw [run_cons, ht', ok_bind, he'], h'⟩

theorem takes_declares {a : Action} (h : a.Takes c cmd e) : ∃ ds, e.declare = c.declare ++ ds ∧
    ∀ dec ∈ ds, dec.name ∈ uses (shapes cmd) := by
  have hadd : ∃ ds, (addLabel c cmd).declare = c.declare ++ ds ∧
      ∀ dec ∈ ds, dec.name ∈ uses (shapes cmd) := by
    refine ⟨_, rfl, fun dec hdec => ?_⟩
    obtain ⟨l, hl, rfl⟩ := List.mem_map.mp hdec
    exact label_mem_uses (Option.mem_toList.mp hl)
  cases a with
  | declare =>
    obtain ⟨tk, pl, addr, dauto, n, vs, htk, _, _, _, _, _, rfl⟩ := h
    exact ⟨_, rfl, List.forall_mem_singleton.mpr (mem_uses Nat.one_pos htk)⟩
  | initr =>
    obtain ⟨_, _, _, _, rfl⟩ := h
    exact hadd
  | noarg op =>
    cases h
    by_cases hf : LabelFresh c.declare cmd
    · rw [tryLabel_fresh hf]
      exact hadd
    · exact ⟨[], by simpa [Asmchip32.emit] using (tryLabel_refused hf).2.2.2, nofun⟩
  | onearg op | jmpi =>
    obtain ⟨_, _, _, _, _, rfl⟩ := h
    exact hadd
  | twoarg op | branch op =>
    obtain ⟨_, _, tk, _, _, _, _, _, _, rfl⟩ := h
    rw [Asmchip32.emit, markLabel_declare]
    exact hadd

/-- A name that no line uses is not declared. -/
theorem run_undeclared {cmds : List Lexcmd} (hcmds : ∀ cmd ∈ cmds, WellLexed cmd)
    (hx : ∀ cmd ∈ cmds, x ∉ uses (shapes cmd)) (hc : declareFind c.declare x = none)
    (hrun : run parseStep cmds c = .ok e) : declareFind e.declare x = none := by
  refine run_invariant parseStep (P := fun cmd => WellLexed cmd ∧ x ∉ uses (shapes cmd))
    (I := fun c => declareFind c.declare x = none) ?_ (fun cmd hcmd => ⟨hcmds cmd hcmd, hx cmd hcmd⟩)
    hc hrun
  rintro c cmd d ⟨hwell, hx⟩ hc hstep
  obtain ⟨a, _, ht⟩ := (parseStep_ok hwell).mp hstep
  obtain ⟨ds, hds, hnames⟩ := takes_declares ht
  rw [hds, declareFind, List.find?_append, ← declareFind, hc, Option.none_or,
    List.find?_eq_none]
  intro dec hdec he
  exact hx (of_decide_eq_true he ▸ hnames dec hdec)

theorem Storage.length_eq {n n' : BitVec 64} {vs vs' : List Word} (h : Storage cmd n vs)
    (h' : Storage cmd n' vs') : vs'.length = vs.length := by
  cases h with
  | cell h₃ =>
    cases h' with
    | cell => rfl
    | string h₃' | list h₃' => cases h₃.symm.trans h₃'
  | string h₃ _ h₄ hinit =>
    cases h' with
    | cell h₃' => cases h₃.symm.trans h₃'
    | string _ _ h₄' =>
      cases h₄.symm.trans h₄'
      rfl
    | list _ _ h₄' hinit' =>
      cases h₄.symm.trans h₄'
      rw [hinit] at hinit'
      rcases hinit' with h | h <;> cases h
  | list h₃ _ h₄ hinit _ hlen =>
    cases h' with
    | cell h₃' => cases h₃.symm.trans h₃'
    | string _ _ h₄' hinit' =>
      cases h₄.symm.trans h₄'
      rw [hinit'] at hinit
      rcases hinit with h | h <;> cases h
    | list _ _ h₄' _ _ hlen' =>
      cases h₄.symm.trans h₄'
      exact hlen'.symm.trans hlen

theorem takes_count {a : Action} (ha : a ≠ .declare) (h : a.Takes c cmd e) :
    e.mc.length = c.mc.length + 1 := by
  obtain ⟨ms, hmc, hms⟩ := takes_emits h
  rw [hmc, List.length_append]
  cases hms with
  | declare => exact absurd rfl ha
  | _ => rfl

/-- A line emits as many commands wherever it stands, and whatever has been declared. -/
theorem step_count (hcmd : Twins cmd cmd') (hstep : parseStep c cmd = .ok e)
    (hstep' : parseStep d cmd' = .ok e') :
    e'.mc.length + c.mc.length = e.mc.length + d.mc.length := by
  obtain ⟨a, ha, ht⟩ := (parseStep_ok hcmd.well).mp hstep
  obtain ⟨a', ha', ht'⟩ := (parseStep_ok hcmd.well').mp hstep'
  rw [hcmd.actionOf_eq] at ha'
  cases ha.symm.trans ha'
  by_cases hdeclare : a = .declare
  · subst hdeclare
    obtain ⟨_, _, addr, dauto, n, vs, _, _, _, _, hst, _, rfl⟩ := ht
    obtain ⟨_, _, addr', dauto', n', vs', _, _, _, _, hst', _, rfl⟩ := ht'
    have hlen := (hcmd.alike.storage hst).length_eq hst'
    simp only [length_stored]
    omega
  · rw [takes_count hdeclare ht, takes_count hdeclare ht']
    omega

theorem run_count {cmds cmds' : List Lexcmd} (hcmds : List.Forall₂ Twins cmds cmds')
    (hrun : Runs.run parseStep cmds c = .ok e) (hrun' : Runs.run parseStep cmds' d = .ok e') :
    e'.mc.length + c.mc.length = e.mc.length + d.mc.length := by
  induction hcmds generalizing c d with
  | nil =>
    cases hrun
    cases hrun'
    exact Nat.add_comm _ _
  | cons hcmd _ ih =>
    obtain ⟨t, ht, hrun⟩ := bind_eq_ok.mp hrun
    obtain ⟨t', ht', hrun'⟩ := bind_eq_ok.mp hrun'
    have hone := step_count hcmd ht ht'
    have hrest := ih hrun hrun'
    omega

end Lines

end Asm
