import Chip32.ParserSpec

/-!
# What the parser rejects

Every call accepts, rejects with an error text, or leaves what C defines. Which
of the three it is can be read off the line and the declarations before it.
-/
namespace Asm

open Runs Vm

section Outcomes

variable {σ α β : Type}

/-- The call leaves what C defines. -/
def Faults (x : Except (Stop σ) α) : Prop := ∃ f, x = .error (.fault f)

@[simp] theorem not_faults_ok (a : α) : ¬ Faults (.ok a : Except (Stop σ) α) := nofun

@[simp] theorem not_faults_fail (c : σ) : ¬ Faults (.error (.fail c) : Except (Stop σ) α) := nofun

@[simp] theorem faults_fault (f : Fault) : Faults (.error (.fault f) : Except (Stop σ) α) := ⟨f, rfl⟩

theorem faults_bind {x : Except (Stop σ) α} {f : α → Except (Stop σ) β} :
    Faults (x >>= f) ↔ Faults x ∨ ∃ a, x = .ok a ∧ Faults (f a) := by
  cases x with
  | ok a => simp
  | error e => simp [Faults]

/-- Whoever rejects leaves a state with `Q`. -/
def Rejects (Q : σ → Prop) (x : Except (Stop σ) α) : Prop := ∀ c, x = .error (.fail c) → Q c

variable {Q : σ → Prop}

theorem rejects_ok (a : α) : Rejects Q (.ok a : Except (Stop σ) α) := nofun

theorem rejects_fault (f : Fault) : Rejects Q (.error (.fault f) : Except (Stop σ) α) := nofun

theorem rejects_bind {x : Except (Stop σ) α} {f : α → Except (Stop σ) β} (hx : Rejects Q x)
    (hf : ∀ a, x = .ok a → Rejects Q (f a)) : Rejects Q (x >>= f) := by
  cases x with
  | ok a => exact hf a rfl
  | error e =>
    rintro c ⟨⟩
    exact hx c rfl

end Outcomes

@[simp] theorem not_faults_complainAt {α : Type} (c : Asmchip32) (tk : Lextoken) (e : String) :
    ¬ Faults (complainAt c tk e : Build α) := nofun

/-- A rejection that leaves an error text. -/
def Complains {α : Type} (x : Build α) : Prop := Rejects (fun c => c.error ≠ none) x

theorem complains_complainAt {α : Type} (c : Asmchip32) (tk : Lextoken) (e : String) :
    Complains (complainAt c tk e : Build α) := by
  rintro d ⟨⟩
  exact Option.some_ne_none _

theorem complains_tokenAt (cmd : Lexcmd) (i : Nat) : Complains (tokenAt cmd i) := by
  unfold tokenAt
  cases cmd[i]? with
  | none => exact rejects_fault _
  | some tk => exact rejects_ok tk

theorem complains_need (c : Asmchip32) (cmd : Lexcmd) (i : Nat) (e : String) :
    Complains (need c cmd i e) := by
  unfold need
  cases cmd[i]? with
  | none => exact rejects_bind (complains_tokenAt _ _) fun tk _ => complains_complainAt _ _ _
  | some tk => exact rejects_ok tk

theorem complains_lvalue (c : Asmchip32) (cmd : Lexcmd) (ic : Nat) (flags : BitVec 8) :
    Complains (parseLvalue c cmd ic flags) := by
  refine rejects_bind (rejects_bind (complains_need _ _ _ _) fun tk _ => ?_) fun f _ =>
    rejects_bind (rejects_bind (complains_need _ _ _ _) fun tk _ => ?_) fun r _ => rejects_ok _
  · cases tk.type with
    | ram | ptr => exact rejects_ok _
    | _ => exact complains_complainAt _ _ _
  · cases tk.type with
    | literalNum => exact rejects_ok _
    | name =>
      cases declareFind c.declare tk.text with
      | none => exact rejects_fault _
      | some dec => exact rejects_ok _
    | _ => exact complains_complainAt _ _ _

theorem complains_rvalue (c : Asmchip32) (cmd : Lexcmd) (ic : Nat) (flags : BitVec 8)
    (idarg : Bool) : Complains (parseRvalue c cmd ic flags idarg) := by
  refine rejects_bind (rejects_bind (complains_need _ _ _ _) fun tk _ => ?_) fun f _ =>
    rejects_bind (rejects_bind (complains_need _ _ _ _) fun tk _ => ?_) fun r _ => rejects_ok _
  · cases rvalueType tk.type with
    | some m => exact rejects_ok _
    | none =>
      simp only
      split_ifs
      · exact rejects_ok _
      · exact complains_complainAt _ _ _
  · cases tk.type with
    | literalNum => exact rejects_ok _
    | name =>
      cases declareFind c.declare tk.text with
      | none => exact complains_complainAt _ _ _
      | some dec => exact rejects_ok _
    | _ => exact complains_complainAt _ _ _

theorem complains_label (c : Asmchip32) (cmd : Lexcmd) : Complains (parseLabel c cmd) := by
  refine rejects_bind (complains_tokenAt _ _) fun tk _ => ?_
  split_ifs
  · exact rejects_ok _
  · cases declareAdd c.declare _ <;> exact rejects_ok _

theorem complains_firstArg (c : Asmchip32) (cmd : Lexcmd) : Complains (firstArg c cmd) :=
  rejects_bind (complains_label c cmd) fun _ _ => rejects_ok _

theorem complains_oneOperand (c : Asmchip32) (cmd : Lexcmd) : Complains (oneOperand c cmd) :=
  rejects_bind (complains_firstArg c cmd) fun _ _ =>
    rejects_bind (complains_rvalue _ _ _ _ _) fun _ _ => rejects_ok _

theorem complains_twoOperands (c : Asmchip32) (cmd : Lexcmd) : Complains (twoOperands c cmd) :=
  rejects_bind (complains_firstArg c cmd) fun _ _ =>
    rejects_bind (complains_lvalue _ _ _ _) fun _ _ =>
      rejects_bind (complains_rvalue _ _ _ _ _) fun _ _ => rejects_ok _

theorem complains_pushValues (addr : Word) (size : Int) (j : Nat) (tks : List Lextoken)
    (c : Asmchip32) : Complains (pushValues addr size j tks c) := by
  induction tks generalizing j c with
  | nil =>
    rw [pushValues]
    split_ifs
    · exact rejects_ok _
    · exact rejects_fault _
  | cons tk tks ih =>
    by_cases hj : size ≤ j
    · rw [pushValues, if_pos hj]
      exact rejects_ok _
    · rw [pushValues_cons tk tks c hj]
      cases initValue tk with
      | none => exact complains_complainAt _ _ _
      | some v =>
        simp only
        split_ifs
        · exact complains_complainAt _ _ _
        · exact ih (j + 1) _

theorem complains_initialise (c : Asmchip32) (cmd : Lexcmd) (addr : Word) (dauto : Bool)
    (sauto : BitVec 64) (tk : Lextoken) : Complains (initialise c cmd addr dauto sauto tk) := by
  unfold initialise
  cases tk.type with
  | literalStr =>
    simp only
    split_ifs
    · exact complains_complainAt _ _ _
    · exact rejects_ok _
    · exact rejects_ok _
  | literalNum | literalChar =>
    exact rejects_bind (complains_pushValues _ _ _ _ _) fun _ _ => rejects_ok _
  | _ => exact complains_complainAt _ _ _

theorem complains_declare (c : Asmchip32) (cmd : Lexcmd) : Complains (actionDeclare c cmd) := by
  refine rejects_bind (complains_tokenAt _ _) fun tk _ => ?_
  split_ifs
  · exact complains_complainAt _ _ _
  · refine rejects_bind (complains_need _ _ _ _) fun pl _ =>
      rejects_bind ?_ fun r _ => rejects_bind ?_ fun d _ => ?_
    · unfold declareAddr
      cases pl.type with
      | literalNum | auto => exact rejects_ok _
      | _ => exact complains_complainAt _ _ _
    · unfold declareStorage
      cases cmd[3]? with
      | none => exact rejects_ok _
      | some size =>
        refine rejects_bind ?_ fun n _ => ?_
        · unfold declareSize
          cases size.type with
          | literalNum => exact rejects_bind (complains_tokenAt _ _) fun _ _ => rejects_ok _
          | auto => exact rejects_ok _
          | _ => exact complains_complainAt _ _ _
        · cases cmd[4]? with
          | none =>
            simp only
            split_ifs
            · exact complains_complainAt _ _ _
            · exact rejects_ok _
          | some init => exact complains_initialise _ _ _ _ _ _
    · cases declareAdd d.declare _ with
      | none => exact complains_complainAt _ _ _
      | some _ => exact rejects_ok _

theorem complains_call (a : Action) (c : Asmchip32) (cmd : Lexcmd) : Complains (a.call c cmd) := by
  cases a with
  | declare => exact complains_declare c cmd
  | initr =>
    refine rejects_bind (complains_firstArg c cmd) fun r _ =>
      rejects_bind (complains_need _ _ _ _) fun tk _ => ?_
    split_ifs
    · exact complains_complainAt _ _ _
    · exact rejects_ok _
  | noarg op => exact rejects_bind (complains_label c cmd) fun _ _ => rejects_ok _
  | onearg op | jmpi => exact rejects_bind (complains_oneOperand c cmd) fun _ _ => rejects_ok _
  | twoarg op | branch op =>
    exact rejects_bind (complains_twoOperands c cmd) fun _ _ => rejects_ok _

/-- A rejected line leaves an error text. -/
theorem complains_step (c : Asmchip32) (cmd : Lexcmd) : Complains (parseStep c cmd) := by
  have hname : Complains (commandName cmd) :=
    rejects_bind (complains_tokenAt _ _) fun _ _ => complains_tokenAt _ _
  refine rejects_bind hname fun tk _ => ?_
  cases findAction tk.text with
  | none => exact complains_complainAt _ _ _
  | some a => exact complains_call a c cmd

theorem faults_tokenAt {cmd : Lexcmd} {i : Nat} : Faults (tokenAt cmd i) ↔ cmd.length ≤ i := by
  unfold tokenAt
  rw [← List.getElem?_eq_none_iff]
  cases cmd[i]? <;> simp

theorem not_faults_need {c : Asmchip32} {cmd : Lexcmd} {i : Nat} {e : String} (hcmd : cmd ≠ [])
    (hi : i ≤ cmd.length) : ¬ Faults (need c cmd i e) := by
  unfold need
  cases cmd[i]? with
  | some tk => exact not_faults_ok tk
  | none =>
    have hpos := List.length_pos_iff.mpr hcmd
    simp only [faults_bind, faults_tokenAt, not_faults_complainAt, and_false, exists_false, or_false]
    omega

/-- The token `parse_lvalue` looks up is the name of nothing. -/
def Missing (d : List Declared) (cmd : Lexcmd) (ic : Nat) : Prop :=
  ((cmd[ic]?.map Lextoken.type).bind lvalueType).isSome ∧
    ∃ tk, cmd[ic + 1]? = some tk ∧ tk.type = .name ∧ declareFind d tk.text = none

theorem faults_lvalueMode {c : Asmchip32} {cmd : Lexcmd} {ic : Nat} {flags : BitVec 8}
    (hcmd : cmd ≠ []) (hic : ic ≤ cmd.length) : ¬ Faults (lvalueMode c cmd ic flags) := by
  simp only [lvalueMode, faults_bind, not_faults_need hcmd hic, false_or, not_exists, not_and]
  intro tk _
  cases tk.type <;> simp

theorem faults_lvalueArg {c : Asmchip32} {cmd : Lexcmd} {ic : Nat} (hcmd : cmd ≠ [])
    (hic : ic ≤ cmd.length) :
    Faults (lvalueArg c cmd ic) ↔
      ∃ tk, cmd[ic]? = some tk ∧ tk.type = .name ∧ declareFind c.declare tk.text = none := by
  simp only [lvalueArg, faults_bind, not_faults_need hcmd hic, false_or, need_ok]
  refine exists_congr fun tk => and_congr_right fun _ => ?_
  cases tk.type with
  | name => cases declareFind c.declare tk.text <;> simp
  | _ => simp

theorem faults_lvalue {c : Asmchip32} {cmd : Lexcmd} {ic : Nat} {flags : BitVec 8} (hcmd : cmd ≠ [])
    (hic : ic ≤ cmd.length) :
    Faults (parseLvalue c cmd ic flags) ↔ Missing c.declare cmd ic := by
  simp only [parseLvalue, faults_bind, faults_lvalueMode hcmd hic, false_or, pure_ok, not_faults_ok,
    and_false, exists_false, or_false]
  constructor
  · rintro ⟨f, hf, h⟩
    obtain ⟨s, m, hs, hm, rfl⟩ := lvalueMode_ok.mp hf
    have hlt := (List.getElem?_eq_some_iff.mp hs).1
    exact ⟨by simp [hs, hm], (faults_lvalueArg hcmd hlt).mp h⟩
  · rintro ⟨hm, h⟩
    obtain ⟨m, hm⟩ := Option.isSome_iff_exists.mp hm
    obtain ⟨type, htype, hm⟩ := Option.bind_eq_some_iff.mp hm
    obtain ⟨s, hs, rfl⟩ := Option.map_eq_some_iff.mp htype
    have hlt := (List.getElem?_eq_some_iff.mp hs).1
    exact ⟨_, lvalueMode_ok.mpr ⟨s, m, hs, hm, rfl⟩, (faults_lvalueArg hcmd hlt).mpr h⟩

theorem not_faults_rvalue {c : Asmchip32} {cmd : Lexcmd} {ic : Nat} {flags : BitVec 8}
    {idarg : Bool} (hcmd : cmd ≠ []) (hic : ic ≤ cmd.length) :
    ¬ Faults (parseRvalue c cmd ic flags idarg) := by
  have hmode : ¬ Faults (rvalueMode c cmd ic flags idarg) := by
    simp only [rvalueMode, faults_bind, not_faults_need hcmd hic, false_or, not_exists, not_and]
    intro tk _
    cases rvalueType tk.type with
    | some m => simp
    | none =>
      simp only
      split_ifs <;> simp
  simp only [parseRvalue, faults_bind, hmode, false_or, pure_ok, not_faults_ok, and_false,
    exists_false, or_false, not_exists, not_and]
  intro r hr
  obtain ⟨m, hpos, _⟩ := rvalueMode_ok hr
  obtain ⟨s, hs, hq⟩ := Option.map_eq_some_iff.mp hpos
  have hlt := (List.getElem?_eq_some_iff.mp hs).1
  have hle : r.1 ≤ cmd.length := by
    cases hm : rvalueType s.type <;> simp only [hm, Prod.mk.injEq] at hq <;> omega
  simp only [rvalueArg, faults_bind, not_faults_need hcmd hle, false_or, not_exists, not_and]
  intro tk _
  cases tk.type with
  | name => cases declareFind c.declare tk.text <;> simp
  | _ => simp

theorem not_faults_firstArg {c : Asmchip32} {cmd : Lexcmd} (hcmd : cmd ≠ []) :
    ¬ Faults (firstArg c cmd) := by
  rcases firstArg_eq (c := c) hcmd with ⟨_, h⟩ | ⟨_, _, _, _, _, h⟩ <;> simp [h]

theorem firstPos_le {cmd : Lexcmd} (hcmd : WellLexed cmd) : firstPos cmd ≤ cmd.length := by
  have hpos := List.length_pos_iff.mpr hcmd.ne_nil
  have hnamed := hcmd.named
  unfold firstPos
  split_ifs with h
  · exact hnamed h
  · exact hpos

theorem not_faults_oneOperand {c : Asmchip32} {cmd : Lexcmd} (hcmd : WellLexed cmd) :
    ¬ Faults (oneOperand c cmd) := by
  simp only [oneOperand, faults_bind, not_faults_firstArg hcmd.ne_nil, false_or, pure_ok,
    not_faults_ok, and_false, exists_false, or_false, not_exists, not_and]
  intro r hr
  rcases firstArg_eq (c := c) hcmd.ne_nil with ⟨_, h⟩ | ⟨_, _, _, _, _, h⟩
  · cases h.symm.trans hr
    exact not_faults_rvalue hcmd.ne_nil (firstPos_le hcmd)
  · cases h.symm.trans hr
    exact not_faults_rvalue hcmd.ne_nil (Nat.zero_le _)

theorem faults_twoOperands {c : Asmchip32} {cmd : Lexcmd} (hcmd : WellLexed cmd) :
    Faults (twoOperands c cmd) ↔
      LabelFresh c.declare cmd ∧ Missing (addLabel c cmd).declare cmd (firstPos cmd) := by
  have hrest : ∀ (d : Asmchip32) (ic : Nat) (flags : BitVec 8) (l : Asmchip32 × Operand),
      parseLvalue d cmd ic flags = .ok l →
      ¬ Faults (parseRvalue l.1 cmd (l.2.ic + 1) l.2.flags true) := by
    intro d ic flags l hl
    obtain ⟨m, tk, ⟨_, htk, _⟩, _, hic, _⟩ := parseLvalue_ok.mp hl
    have hlt := (List.getElem?_eq_some_iff.mp htk).1
    exact not_faults_rvalue hcmd.ne_nil (by omega)
  have hiff : Faults (twoOperands c cmd) ↔
      ∃ r, firstArg c cmd = .ok r ∧ Faults (parseLvalue r.2 cmd r.1 0) := by
    simp only [twoOperands, faults_bind, not_faults_firstArg hcmd.ne_nil, false_or, pure_ok,
      not_faults_ok, and_false, exists_false, or_false]
    refine exists_congr fun r => and_congr_right fun _ => or_iff_left ?_
    rintro ⟨l, hl, h⟩
    exact hrest _ _ _ l hl h
  rw [hiff]
  rcases firstArg_eq (c := c) hcmd.ne_nil with ⟨hf, h⟩ | ⟨tk, e, h₀, ht, hf, h⟩
  · simp only [h, Except.ok.injEq, exists_eq_left', faults_lvalue hcmd.ne_nil (firstPos_le hcmd), hf,
      true_and]
  · simp only [h, Except.ok.injEq, exists_eq_left', faults_lvalue hcmd.ne_nil (Nat.zero_le _), hf,
      false_and, iff_false]
    rintro ⟨hm, _⟩
    simp [h₀, ht, lvalueType] at hm

theorem not_faults_pushValues {addr : Word} {size : Int} {j : Nat} {tks : List Lextoken}
    {c : Asmchip32} (htks : tks ≠ []) : ¬ Faults (pushValues addr size j tks c) := by
  induction tks generalizing j c with
  | nil => exact absurd rfl htks
  | cons tk tks ih =>
    by_cases hj : size ≤ j
    · rw [pushValues, if_pos hj]
      exact not_faults_ok _
    · rw [pushValues_cons tk tks c hj]
      cases initValue tk with
      | none => exact not_faults_complainAt _ _ _
      | some v =>
        simp only
        split_ifs with h
        · exact not_faults_complainAt _ _ _
        · exact ih h

theorem not_faults_initialise {c : Asmchip32} {cmd : Lexcmd} {addr : Word} {dauto : Bool}
    {sauto : BitVec 64} {tk : Lextoken} (hcmd : 4 < cmd.length) :
    ¬ Faults (initialise c cmd addr dauto sauto tk) := by
  have hdrop : cmd.drop 4 ≠ [] := by simp; omega
  unfold initialise
  cases tk.type with
  | literalStr =>
    simp only
    split_ifs <;> simp
  | literalNum | literalChar =>
    simp only [faults_bind, not_faults_pushValues hdrop, not_faults_ok, and_false, exists_false,
      or_false, not_false_eq_true]
  | _ => exact not_faults_complainAt _ _ _

/-- A number for the size, and no token behind it. -/
theorem faults_declareStorage {c : Asmchip32} {cmd : Lexcmd} {addr : Word} {dauto : Bool} :
    Faults (declareStorage c cmd addr dauto) ↔
      cmd[3]?.map Lextoken.type = some .literalNum ∧ cmd[4]? = none := by
  unfold declareStorage
  cases h₃ : cmd[3]? with
  | none => simp
  | some size =>
    have hsize : Faults (declareSize c cmd size) ↔ size.type = .literalNum ∧ cmd[4]? = none := by
      unfold declareSize
      cases size.type with
      | literalNum => simp [faults_bind, faults_tokenAt]
      | _ => simp
    simp only [faults_bind, hsize, Option.map_some, Option.some.injEq]
    refine or_iff_left ?_
    rintro ⟨sauto, _, h⟩
    cases h₄ : cmd[4]? with
    | none =>
      simp only [h₄] at h
      split_ifs at h <;> simp at h
    | some init =>
      simp only [h₄] at h
      exact not_faults_initialise (List.getElem?_eq_some_iff.mp h₄).1 h

/-- A declaration that reads a token behind its last one. -/
def ReadsBehind (cmd : Lexcmd) : Prop :=
  cmd[1]? = none ∨ cmd[1]?.map Lextoken.type = some .name ∧
    (cmd[2]?.map Lextoken.type = some .literalNum ∨ cmd[2]?.map Lextoken.type = some .auto) ∧
    cmd[3]?.map Lextoken.type = some .literalNum ∧ cmd[4]? = none

theorem faults_declare {c : Asmchip32} {cmd : Lexcmd} (hcmd : cmd ≠ []) :
    Faults (actionDeclare c cmd) ↔ ReadsBehind cmd := by
  unfold actionDeclare ReadsBehind
  rw [faults_bind, faults_tokenAt, ← List.getElem?_eq_none_iff]
  cases h₁ : cmd[1]? with
  | none => simp
  | some tk =>
    have hlt : 2 ≤ cmd.length := (List.getElem?_eq_some_iff.mp h₁).1
    simp only [reduceCtorEq, false_or, tokenAt_ok, h₁, Option.some.injEq, exists_eq_left',
      Option.map_some]
    split_ifs with hname
    · simp [hname]
    · simp only [ne_eq, not_not] at hname
      simp only [faults_bind, not_faults_need hcmd hlt, false_or, hname, true_and, need_ok]
      have hplace : ∀ pl : Lextoken, (∃ r, declareAddr c tk pl = .ok r) ↔
          pl.type = .literalNum ∨ pl.type = .auto := by
        intro pl
        unfold declareAddr
        cases pl.type <;> simp
      cases h₂ : cmd[2]? with
      | none => simp
      | some pl =>
        simp only [Option.some.injEq, exists_eq_left', Option.map_some, ← hplace]
        constructor
        · rintro (h | ⟨r, hr, h | ⟨d, _, h⟩⟩)
          · unfold declareAddr at h
            cases ht : pl.type <;> simp [ht] at h
          · exact ⟨⟨r, hr⟩, faults_declareStorage.mp h⟩
          · split at h <;> simp at h
        · rintro ⟨⟨r, hr⟩, h⟩
          exact .inr ⟨r, hr, .inl (faults_declareStorage.mpr h)⟩

/-- A line that the parser does not survive. -/
def Crashes (c : Asmchip32) (cmd : Lexcmd) : Prop :=
  match actionOf cmd with
  | some .declare => ReadsBehind cmd
  | some (.twoarg _) | some (.branch _) =>
    LabelFresh c.declare cmd ∧ Missing (addLabel c cmd).declare cmd (firstPos cmd)
  | _ => False

theorem commandName_action {cmd : Lexcmd} (hcmd : WellLexed cmd) :
    ∃ tk, commandName cmd = .ok tk ∧ actionOf cmd = findAction tk.text := by
  have hpos := List.length_pos_iff.mpr hcmd.ne_nil
  have hlt : (if (labelOf cmd).isSome then 1 else 0) < cmd.length := by
    split_ifs with hl
    · exact hcmd.named hl
    · exact hpos
  obtain ⟨tk, htk⟩ := Option.ne_none_iff_exists'.mp fun h =>
    absurd (List.getElem?_eq_none_iff.mp h) (Nat.not_le.mpr hlt)
  exact ⟨tk, (commandName_ok hcmd.ne_nil).mpr htk, by simp [actionOf, htk]⟩

/-- A line of a known command is its action's. -/
theorem parseStep_call {a : Action} {c : Asmchip32} {cmd : Lexcmd} (hcmd : WellLexed cmd)
    (ha : actionOf cmd = some a) : parseStep c cmd = a.call c cmd := by
  obtain ⟨tk, htk, h⟩ := commandName_action hcmd
  rw [parseStep, htk, ok_bind, ← h, ha]

theorem faults_step {c : Asmchip32} {cmd : Lexcmd} (hcmd : WellLexed cmd) :
    Faults (parseStep c cmd) ↔ Crashes c cmd := by
  obtain ⟨tk, htk, ha⟩ := commandName_action hcmd
  rw [parseStep, htk, ok_bind, Crashes, ha]
  cases findAction tk.text with
  | none => simp
  | some a =>
    cases a with
    | declare => exact faults_declare hcmd.ne_nil
    | initr =>
      have hneed : ∀ r, firstArg c cmd = .ok r → ¬ Faults (need r.2 cmd r.1 "missing argument") := by
        intro r hr
        rcases firstArg_eq (c := c) hcmd.ne_nil with ⟨_, h⟩ | ⟨_, _, _, _, _, h⟩
        · cases h.symm.trans hr
          exact not_faults_need hcmd.ne_nil (firstPos_le hcmd)
        · cases h.symm.trans hr
          exact not_faults_need hcmd.ne_nil (Nat.zero_le _)
      simp only [Action.call, actionInitr, faults_bind, not_faults_firstArg hcmd.ne_nil, false_or,
        iff_false, not_exists, not_and]
      rintro r hr (h | ⟨tk, _, h⟩)
      · exact hneed r hr h
      · split_ifs at h <;> simp at h
    | noarg op =>
      obtain ⟨l, hl⟩ := parseLabel_state (c := c) hcmd.ne_nil
      simp [Action.call, parseNoarg, hl]
    | onearg op =>
      simp [Action.call, parseOnearg, faults_bind, not_faults_oneOperand hcmd]
    | jmpi =>
      simp [Action.call, actionJmpi, faults_bind, not_faults_oneOperand hcmd]
    | twoarg op =>
      simp [Action.call, parseTwoarg, faults_bind, faults_twoOperands hcmd]
    | branch op =>
      simp [Action.call, parseBranch, faults_bind, faults_twoOperands hcmd]

/-- A line the parser accepts. -/
def Accepts (c : Asmchip32) (cmd : Lexcmd) : Prop :=
  match actionOf cmd with
  | none => False
  | some .declare =>
    (∃ tk, cmd[1]? = some tk ∧ tk.type = .name ∧ Fresh c.declare tk.text) ∧
      (cmd[2]?.map Lextoken.type = some .literalNum ∨ cmd[2]?.map Lextoken.type = some .auto) ∧
      ∃ n vs, Storage cmd n vs
  | some .initr => LabelFresh c.declare cmd ∧
      cmd[firstPos cmd]?.map Lextoken.type = some .literalNum
  | some (.noarg _) => True
  | some (.onearg _) | some .jmpi => LabelFresh c.declare cmd ∧
      ∃ m q v, IsRvalue (addLabel c cmd).declare cmd (firstPos cmd) m q v
  | some (.twoarg _) | some (.branch _) => LabelFresh c.declare cmd ∧ ∃ m tk v m' q w,
      IsLvalue (addLabel c cmd).declare cmd (firstPos cmd) m tk v ∧
        IsRvalue (addLabel c cmd).declare cmd (firstPos cmd + 2) m' q w

theorem place_isSome {c : Asmchip32} {tk pl : Lextoken} :
    (∃ r, place c tk pl = some r) ↔ pl.type = .literalNum ∨ pl.type = .auto := by
  unfold place
  cases pl.type <;> simp

theorem takes_iff_accepts {a : Action} {c : Asmchip32} {cmd : Lexcmd} (ha : actionOf cmd = some a) :
    (∃ d, a.Takes c cmd d) ↔ Accepts c cmd := by
  unfold Accepts
  rw [ha]
  cases a with
  | declare =>
    constructor
    · rintro ⟨d, tk, pl, addr, dauto, n, vs, h₁, hname, h₂, hp, hst, hf, _⟩
      refine ⟨⟨tk, h₁, hname, hf⟩, ?_, n, vs, hst⟩
      simpa [h₂] using place_isSome.mp ⟨_, hp⟩
    · rintro ⟨⟨tk, h₁, hname, hf⟩, hpl, n, vs, hst⟩
      obtain ⟨pl, h₂, hp⟩ : ∃ pl, cmd[2]? = some pl ∧ ∃ r, place c tk pl = some r := by
        simp only [place_isSome]
        cases h₂ : cmd[2]? with
        | none => simp [h₂] at hpl
        | some pl => exact ⟨pl, rfl, by simpa [h₂] using hpl⟩
      obtain ⟨⟨addr, dauto⟩, hp⟩ := hp
      exact ⟨_, tk, pl, addr, dauto, n, vs, h₁, hname, h₂, hp, hst, hf, rfl⟩
  | initr =>
    simp only [Action.Takes]
    constructor
    · rintro ⟨d, hf, tk, htk, ht, _⟩
      exact ⟨hf, by simp [htk, ht]⟩
    · rintro ⟨hf, ht⟩
      obtain ⟨tk, htk, ht⟩ := Option.map_eq_some_iff.mp ht
      exact ⟨_, hf, tk, htk, ht, rfl⟩
  | noarg op => exact ⟨fun _ => trivial, fun _ => ⟨_, rfl⟩⟩
  | onearg op | jmpi =>
    constructor
    · rintro ⟨d, hf, m, q, v, h, _⟩
      exact ⟨hf, m, q, v, h⟩
    · rintro ⟨hf, m, q, v, h⟩
      exact ⟨_, hf, m, q, v, h, rfl⟩
  | twoarg op | branch op =>
    constructor
    · rintro ⟨d, hf, m, tk, v, m', q, w, hl, hr, _⟩
      exact ⟨hf, m, tk, v, m', q, w, hl, hr⟩
    · rintro ⟨hf, m, tk, v, m', q, w, hl, hr⟩
      exact ⟨_, hf, m, tk, v, m', q, w, hl, hr, rfl⟩

theorem accepts_iff {c : Asmchip32} {cmd : Lexcmd} (hcmd : WellLexed cmd) :
    (∃ d, parseStep c cmd = .ok d) ↔ Accepts c cmd := by
  simp only [parseStep_ok hcmd]
  cases ha : actionOf cmd with
  | none => simp [Accepts, ha]
  | some a =>
    rw [← takes_iff_accepts ha]
    simp

/-- An accepted line that leaves an error text all the same. -/
def Silent (c : Asmchip32) (cmd : Lexcmd) : Prop :=
  match actionOf cmd with
  | some (.noarg _) => ¬ LabelFresh c.declare cmd
  | some (.twoarg _) | some (.branch _) =>
    ∃ tk, cmd[firstPos cmd + 1]? = some tk ∧ NamesLabel (addLabel c cmd).declare tk
  | _ => False

theorem markLabel_error {c : Asmchip32} {tk : Lextoken} :
    (markLabel c tk).error = none ↔ c.error = none ∧ ¬ NamesLabel c.declare tk := by
  unfold markLabel
  split_ifs with h
  · simp [h, Asmchip32.complainAt]
  · simp [h]

theorem takes_error {a : Action} {c d : Asmchip32} {cmd : Lexcmd} (hcmd : cmd ≠ [])
    (ha : actionOf cmd = some a) (h : a.Takes c cmd d) :
    d.error = none ↔ c.error = none ∧ ¬ Silent c cmd := by
  unfold Silent
  rw [ha]
  cases a with
  | declare =>
    obtain ⟨tk, pl, addr, dauto, n, vs, _, _, _, _, _, _, rfl⟩ := h
    cases dauto <;> simp [stored, Asmchip32.advance]
  | initr =>
    obtain ⟨_, _, _, _, rfl⟩ := h
    simp [addLabel, Asmchip32.emit]
  | noarg op =>
    cases h
    obtain ⟨tk, rest, rfl⟩ := List.exists_cons_of_ne_nil hcmd
    by_cases hf : LabelFresh c.declare (tk :: rest)
    · simp [tryLabel, hf, addLabel, Asmchip32.emit]
    · simp [tryLabel, hf, Asmchip32.complainAt, Asmchip32.emit]
  | onearg op | jmpi =>
    obtain ⟨_, _, _, _, _, rfl⟩ := h
    simp [addLabel, Asmchip32.emit]
  | twoarg op | branch op =>
    obtain ⟨_, m, tk, v, m', q, w, ⟨_, htk, _⟩, _, rfl⟩ := h
    simp only [Asmchip32.emit, markLabel_error, htk, Option.some.injEq, exists_eq_left']
    rfl

section Behind

/-- A token is read that the lexer did not write. -/
def ReadsUnwritten {α : Type} (x : Build α) : Prop := x = .error (.fault .uninitialised)

theorem readsUnwritten_bind {α β : Type} {x : Build α} {f : α → Build β} :
    ReadsUnwritten (x >>= f) ↔ ReadsUnwritten x ∨ ∃ a, x = .ok a ∧ ReadsUnwritten (f a) :=
  bind_eq_error

theorem ReadsUnwritten.faults {α : Type} {x : Build α} (h : ReadsUnwritten x) : Faults x := ⟨_, h⟩

theorem written_lvalue {c : Asmchip32} {cmd : Lexcmd} {ic : Nat} {flags : BitVec 8} (hcmd : cmd ≠ [])
    (hic : ic ≤ cmd.length) : ¬ ReadsUnwritten (parseLvalue c cmd ic flags) := by
  simp only [parseLvalue, readsUnwritten_bind]
  rintro (h | ⟨f, hf, h | ⟨_, _, h⟩⟩)
  · exact faults_lvalueMode hcmd hic h.faults
  · obtain ⟨s, m, hs, _⟩ := lvalueMode_ok.mp hf
    have hlt := (List.getElem?_eq_some_iff.mp hs).1
    rcases readsUnwritten_bind.mp h with h | ⟨tk, _, h⟩
    · exact not_faults_need hcmd hlt h.faults
    · -- the pointer of a failed lookup is followed, but no token is read
      cases ht : tk.type with
      | name =>
        simp only [ht] at h
        cases hd : declareFind c.declare tk.text with
        | none => simp [hd, ReadsUnwritten] at h
        | some dec => simp [hd, ReadsUnwritten] at h
      | literalNum => simp [ht, ReadsUnwritten] at h
      | _ => exact not_faults_complainAt _ _ _ (by simpa only [ht] using h.faults)
  · cases h

theorem written_twoOperands {c : Asmchip32} {cmd : Lexcmd} (hcmd : WellLexed cmd) :
    ¬ ReadsUnwritten (twoOperands c cmd) := by
  simp only [twoOperands, readsUnwritten_bind]
  rintro (h | ⟨r, hr, h | ⟨l, hl, h | ⟨_, _, h⟩⟩⟩)
  · exact not_faults_firstArg hcmd.ne_nil h.faults
  · rcases firstArg_eq (c := c) hcmd.ne_nil with ⟨_, hf⟩ | ⟨_, _, _, _, _, hf⟩
    · cases hf.symm.trans hr
      exact written_lvalue hcmd.ne_nil (firstPos_le hcmd) h
    · cases hf.symm.trans hr
      exact written_lvalue hcmd.ne_nil (Nat.zero_le _) h
  · obtain ⟨m, tk, ⟨_, htk, _⟩, _, hic, _⟩ := parseLvalue_ok.mp hl
    have hlt := (List.getElem?_eq_some_iff.mp htk).1
    exact not_faults_rvalue hcmd.ne_nil (by omega) h.faults
  · cases h

theorem declare_readsUnwritten {c : Asmchip32} {cmd : Lexcmd} (hcmd : cmd ≠ []) :
    ReadsUnwritten (actionDeclare c cmd) ↔ ReadsBehind cmd := by
  refine ⟨fun h => (faults_declare hcmd).mp h.faults, ?_⟩
  rintro (h₁ | ⟨h₁, hpl, h₃, h₄⟩)
  · simp [actionDeclare, tokenAt, h₁, ReadsUnwritten]
  · obtain ⟨tk, h₁, hname⟩ := Option.map_eq_some_iff.mp h₁
    obtain ⟨size, h₃, hsize⟩ := Option.map_eq_some_iff.mp h₃
    have hstorage : ∀ d addr dauto, declareStorage d cmd addr dauto =
        .error (.fault .uninitialised) := by
      intro d addr dauto
      simp [declareStorage, h₃, declareSize, hsize, tokenAt, h₄]
    obtain ⟨pl, h₂, hpl⟩ : ∃ pl, cmd[2]? = some pl ∧ (pl.type = .literalNum ∨ pl.type = .auto) := by
      cases h₂ : cmd[2]? with
      | none => simp [h₂] at hpl
      | some pl => exact ⟨pl, rfl, by simpa [h₂] using hpl⟩
    rcases hpl with hpl | hpl <;>
      simp [actionDeclare, tokenAt, h₁, hname, need, h₂, declareAddr, hpl, hstorage, ReadsUnwritten]

/-- A `declare` that reads a token nobody wrote. -/
def Overreads (cmd : Lexcmd) : Prop := actionOf cmd = some .declare ∧ ReadsBehind cmd

theorem step_readsUnwritten {c : Asmchip32} {cmd : Lexcmd} (hcmd : WellLexed cmd) :
    ReadsUnwritten (parseStep c cmd) ↔ Overreads cmd := by
  constructor
  · intro h
    have hcrash := (faults_step hcmd).mp h.faults
    unfold Crashes at hcrash
    cases ha : actionOf cmd with
    | none => simp [ha] at hcrash
    | some a =>
      rw [parseStep_call hcmd ha] at h
      cases a with
      | declare => exact ⟨ha, (declare_readsUnwritten hcmd.ne_nil).mp h⟩
      | twoarg op | branch op =>
        rcases readsUnwritten_bind.mp h with h | ⟨_, _, h⟩
        · exact absurd h (written_twoOperands hcmd)
        · cases h
      | _ => simp [ha] at hcrash
  · rintro ⟨ha, hb⟩
    rw [parseStep_call hcmd ha]
    exact (declare_readsUnwritten hcmd.ne_nil).mpr hb

/-- The parser reads only tokens that the lexer wrote, exactly when no line it comes to
is a `declare` that ends before its name or in a number for its size. -/
theorem reads_written {code : Text} {c : Asmchip32} (hlex : lexer (.new code) = .ok c) :
    parse c ≠ .error (.fault .uninitialised) ↔
      Along parseStep (fun _ cmd => ¬ Overreads cmd) c.vcmd c := by
  have hcmds := lexer_wellLexed hlex
  have hrun : ReadsUnwritten (run parseStep c.vcmd c) ↔
      ¬ Along parseStep (fun d cmd => ¬ ReadsUnwritten (parseStep d cmd)) c.vcmd c := by
    simpa only [exists_eq_left, ReadsUnwritten] using
      run_error_iff parseStep (E := (· = .fault .uninitialised))
  rw [parse, ne_eq, ← ReadsUnwritten, hrun, not_not]
  exact along_congr parseStep fun cmd hcmd d => not_congr (step_readsUnwritten (hcmds cmd hcmd))

/-- A variable of three cells, and one with its values. -/
def sized : Text := "initr 64\ndeclare a, ?, ?, 3\n".toList

theorem reads_written_sized : parse (final (lexer (.new sized))) ≠ .error (.fault .uninitialised) ↔
    Along parseStep (fun _ cmd => ¬ Overreads cmd) (final (lexer (.new sized))).vcmd
      (final (lexer (.new sized))) :=
  reads_written (ok_final (by decide +kernel))

/-- The size of `declare a, ?, 3` is read from the token behind it. -/
theorem size_unwritten : ∃ c, lexer (.new "initr 64\ndeclare a, ?, 3\n".toList) = .ok c ∧
    parse c = .error (.fault .uninitialised) :=
  ⟨final (lexer (.new "initr 64\ndeclare a, ?, 3\n".toList)), ok_final (by decide +kernel),
    by decide +kernel⟩

end Behind

end Asm
