import Chip32.Rejection
import Mathlib.Data.List.Induction
import Mathlib.Data.List.Nodup

/-!
# Names in a source

Which names the lines of a source declare and use, and when `build` rejects a
source that gets them wrong. What it overlooks is what the parser never looks
up, records, or stops at.
-/
namespace Asm

open Runs Vm

/-- A token in front of the command name. -/
def isLabel (tk : Lextoken) : Bool := tk.type = .label

def labels (cmd : Lexcmd) : List (List Char) := (cmd.takeWhile isLabel).map Lextoken.text

/-- The command name and its arguments. -/
def command (cmd : Lexcmd) : Lexcmd := cmd.dropWhile isLabel

/-- The variable that a `declare` line names. -/
def variableOf (cmd : Lexcmd) : Option (List Char) :=
  match command cmd with
  | name :: tk :: _ =>
    if name.text = "declare".toList ∧ tk.type = .name then some tk.text else none
  | _ => none

/-- The names a line declares. -/
def declares (cmd : Lexcmd) : List (List Char) := labels cmd ++ (variableOf cmd).toList

/-- Where the operands of a line begin. -/
def operandsFrom (cmd : Lexcmd) : Nat := (labels cmd).length + 1 + (variableOf cmd).toList.length

/-- An operand at position `p` uses a name. -/
def UsesAt (cmd : Lexcmd) (p : Nat) (name : List Char) : Prop :=
  operandsFrom cmd ≤ p ∧ ∃ tk, cmd[p]? = some tk ∧ tk.type = .name ∧ tk.text = name

/-- The commands that store to their first operand. -/
def storing : List String :=
  ["move", "inc", "dec", "sum", "dif", "mul", "div", "mod", "or", "xor", "and", "not", "shl",
    "shr", "rol", "ror", "bor", "band", "bnot", "pop", "strcpy"]

/-- The name of a `$` or `*` destination. -/
def destination (cmd : Lexcmd) : Option (List Char) :=
  match command cmd with
  | name :: sigil :: tk :: _ =>
    if String.ofList name.text ∈ storing ∧ (sigil.type = .ram ∨ sigil.type = .ptr) ∧
        tk.type = .name then some tk.text
    else none
  | _ => none

/-- A source gets a name wrong: an operand uses one that no earlier line declares, a
destination is a label, or a name is declared twice. -/
inductive NameError (lines : List Lexcmd) : Prop
  | undeclared {before after : List Lexcmd} {cmd : Lexcmd} (h : lines = before ++ cmd :: after)
      {p : Nat} {name : List Char} (huse : UsesAt cmd p name)
      (hname : name ∉ before.flatMap declares)
  | toLabel {cmd : Lexcmd} (h : cmd ∈ lines) {name : List Char} (hdest : destination cmd = some name)
      (hlabel : name ∈ lines.flatMap labels)
  | twice (h : ¬ (lines.flatMap declares).Nodup)

/-- `build` comes back, rejects every source that gets a name wrong with an error
text, and accepts none with an error text. -/
structure RejectsNames (code : Text) : Prop where
  returns : ∀ f, build code ≠ .error (.fault f)
  rejects : ∀ lexed, lexer (.new code) = .ok lexed → NameError lexed.vcmd →
    ∃ c, build code = .error (.fail c) ∧ c.error ≠ none
  accepts : ∀ c, build code = .ok c → c.error = none

/-- The positions at which an accepted line has its names looked up. -/
def reads (cmd : Lexcmd) : List Nat :=
  match actionOf cmd with
  | some (.onearg _) | some .jmpi => (rvaluePos cmd (firstPos cmd)).toList.map Prod.snd
  | some (.twoarg _) | some (.branch _) =>
    (firstPos cmd + 1) :: (rvaluePos cmd (firstPos cmd + 2)).toList.map Prod.snd
  | _ => []

/-- The name an accepted line adds to the declarations. -/
def recorded (cmd : Lexcmd) : List (List Char) :=
  if actionOf cmd = some .declare then (cmd[1]?.map Lextoken.text).toList else (labelOf cmd).toList

/-- The names a line declares and the parser passes over: on a `declare` line the
label, on any other what follows the first label. -/
def lost (cmd : Lexcmd) : List (List Char) :=
  if actionOf cmd = some .declare ∧ (labelOf cmd).isSome then declares cmd else (declares cmd).tail

/-- Nothing in an accepted source escapes the parser. -/
structure NoneMissed (c : Asmchip32) (lines : List Lexcmd) : Prop where
  /-- No error text is left behind by a line that goes through. -/
  silent : Along parseStep (fun c cmd => ¬ Silent c cmd) lines c
  /-- No destination is a label. -/
  toLabel : ∀ cmd ∈ lines, ∀ name, destination cmd = some name → name ∉ lines.flatMap labels
  /-- An operand that is not looked up uses a declared name. -/
  unread : ∀ before cmd after, lines = before ++ cmd :: after →
    ∀ p name, UsesAt cmd p name → p ∉ reads cmd → name ∈ before.flatMap declares
  /-- An operand that is looked up does not use the label of its line, nor the
  `declare` that a `declare` line with a label adds. -/
  own : ∀ before cmd after, lines = before ++ cmd :: after →
    ∀ p name, UsesAt cmd p name → p ∈ reads cmd →
      labelOf cmd ≠ some name ∧ (name = "declare".toList → name ∈ before.flatMap declares)
  /-- A name that is passed over is declared once. -/
  lost : ∀ name ∈ lines.flatMap lost, (lines.flatMap declares).count name ≤ 1

/-- No line crashes the parser, and if none is rejected either, nothing escapes it. -/
def Sound (c : Asmchip32) (lines : List Lexcmd) : Prop :=
  Along parseStep (fun c cmd => ¬ Crashes c cmd) lines c ∧
    (Along parseStep Accepts lines c → NoneMissed c lines)

theorem labelOf_eq (cmd : Lexcmd) : labelOf cmd = (labels cmd).head? := by
  cases cmd with
  | nil => rfl
  | cons tk cmd => by_cases ht : tk.type = .label <;> simp [labelOf, labels, isLabel, ht]

theorem findAction_declare {name : List Char} (h : findAction name = some .declare) :
    name = "declare".toList := by
  obtain ⟨x, hx, ha⟩ := Option.map_eq_some_iff.mp h
  have hname : x.1.toList = name := by simpa using List.find?_some hx
  have hmem := List.mem_of_find?_eq_some hx
  have hall : ∀ x ∈ actions, x.2 = .declare → x.1.toList = "declare".toList := by decide
  rw [← hname, hall x hmem ha]

theorem findAction_name : findAction "declare".toList = some .declare := by decide

/-- A line without a label is its own command. -/
theorem command_of_none {cmd : Lexcmd} (h : labelOf cmd = none) :
    labels cmd = [] ∧ command cmd = cmd := by
  cases cmd with
  | nil => exact ⟨rfl, rfl⟩
  | cons tk cmd =>
    have ht : tk.type ≠ .label := by
      intro ht
      simp [labelOf, ht] at h
    simp [labels, command, isLabel, ht]

theorem declares_eq {a : Action} {c d : Asmchip32} {cmd : Lexcmd} (ha : actionOf cmd = some a)
    (h : a.Takes c cmd d) :
    (recorded cmd = ["declare".toList] ∧ lost cmd = declares cmd) ∨
      declares cmd = recorded cmd ++ lost cmd := by
  cases hl : labelOf cmd with
  | none =>
    obtain ⟨hlabels, hcmd⟩ := command_of_none hl
    have hfind : cmd[0]?.bind (fun tk => findAction tk.text) = some a := by
      simpa [actionOf, hl] using ha
    obtain ⟨name, hname, ha'⟩ := Option.bind_eq_some_iff.mp hfind
    right
    by_cases hd : a = .declare
    · subst hd
      obtain ⟨tk, pl, _, _, _, _, htk, ht, _⟩ := h
      have hvar : variableOf cmd = some tk.text := by
        rcases cmd with _ | ⟨name', _ | ⟨tk', rest⟩⟩
        · cases hname
        · cases htk
        · cases hname
          cases htk
          simp [variableOf, hcmd, findAction_declare ha', ht]
      simp [declares, recorded, lost, hlabels, hvar, ha, htk, hl]
    · have hvar : variableOf cmd = none := by
        rcases cmd with _ | ⟨name', _ | ⟨tk', rest⟩⟩
        · cases hname
        · simp [variableOf, hcmd]
        · cases hname
          have hne : name.text ≠ "declare".toList := by
            intro he
            rw [he, findAction_name] at ha'
            exact hd (Option.some.inj ha').symm
          simp only [variableOf, hcmd, hne, false_and, if_false]
      simp [declares, recorded, lost, hlabels, hvar, ha, hl, hd]
  | some l =>
    have hhead : (labels cmd).head? = some l := (labelOf_eq cmd).symm.trans hl
    obtain ⟨ls, hls⟩ := List.head?_eq_some_iff.mp hhead
    by_cases hd : a = .declare
    · subst hd
      obtain ⟨tk, pl, _, _, _, _, htk, ht, _⟩ := h
      have hfind : cmd[1]?.bind (fun tk => findAction tk.text) = some .declare := by
        simpa [actionOf, hl] using ha
      have hname : tk.text = "declare".toList := by
        rw [htk] at hfind
        exact findAction_declare hfind
      left
      simp [recorded, lost, ha, htk, hname, hl]
    · right
      simp [declares, recorded, lost, hls, ha, hl, hd]

/-- The names in the hash table. -/
def known (c : Asmchip32) : List (List Char) := c.declare.map Declared.name

theorem declareFind_eq_none {d : List Declared} {name : List Char} :
    declareFind d name = none ↔ name ∉ d.map Declared.name := by
  simp [declareFind]

theorem known_addLabel (c : Asmchip32) (cmd : Lexcmd) :
    known (addLabel c cmd) = known c ++ (labelOf cmd).toList := by
  cases hl : labelOf cmd <;> simp [known, addLabel, hl]

/-- An accepted line that leaves no error adds one name at most, and a new one. -/
theorem takes_known {a : Action} {c d : Asmchip32} {cmd : Lexcmd} (ha : actionOf cmd = some a)
    (h : a.Takes c cmd d) (hs : ¬ Silent c cmd) :
    known d = known c ++ recorded cmd ∧ ∀ name ∈ recorded cmd, name ∉ known c := by
  have hlabel : a ≠ .declare → LabelFresh c.declare cmd → known d = known (addLabel c cmd) →
      known d = known c ++ recorded cmd ∧ ∀ name ∈ recorded cmd, name ∉ known c := by
    intro hne hf hd
    have hrec : recorded cmd = (labelOf cmd).toList := by simp [recorded, ha, hne]
    rw [hrec, hd, known_addLabel]
    exact ⟨rfl, fun name hname =>
      declareFind_eq_none.mp (hf name (Option.mem_toList.mp hname)).1⟩
  cases a with
  | declare =>
    obtain ⟨tk, pl, addr, dauto, n, vs, htk, _, _, _, _, hf, rfl⟩ := h
    have hrec : recorded cmd = [tk.text] := by simp [recorded, ha, htk]
    rw [hrec]
    refine ⟨by simp [known], fun name hname => ?_⟩
    rw [List.mem_singleton.mp hname]
    exact declareFind_eq_none.mp hf.1
  | initr =>
    obtain ⟨hf, _, _, _, rfl⟩ := h
    exact hlabel (by rintro ⟨⟩) hf rfl
  | noarg op =>
    have hf : LabelFresh c.declare cmd := by simpa [Silent, ha] using hs
    cases h
    refine hlabel (by rintro ⟨⟩) hf ?_
    simp [tryLabel, hf, Asmchip32.emit, known]
  | onearg op | jmpi =>
    obtain ⟨hf, _, _, _, _, rfl⟩ := h
    exact hlabel (by rintro ⟨⟩) hf rfl
  | twoarg op | branch op =>
    obtain ⟨hf, _, tk, _, _, _, _, _, _, rfl⟩ := h
    exact hlabel (by rintro ⟨⟩) hf (congrArg (List.map Declared.name) (markLabel_declare _ tk))

theorem known_of_valueOf {d : List Declared} {tk : Lextoken} {v : Word} (ht : tk.type = .name)
    (h : valueOf d tk = some v) : tk.text ∈ d.map Declared.name := by
  by_contra hn
  simp [valueOf, ht, declareFind_eq_none.mpr hn] at h

/-- Where an accepted line is read, a name has been declared. -/
theorem reads_known {a : Action} {c d : Asmchip32} {cmd : Lexcmd} (ha : actionOf cmd = some a)
    (h : a.Takes c cmd d) {p : Nat} (hp : p ∈ reads cmd) {tk : Lextoken} (htk : cmd[p]? = some tk)
    (ht : tk.type = .name) : tk.text ∈ known c ++ (labelOf cmd).toList := by
  have hr : ∀ {ic : Nat} {m : Option Mode} {q : Nat} {v : Word},
      IsRvalue (addLabel c cmd).declare cmd ic m q v →
      p ∈ (rvaluePos cmd ic).toList.map Prod.snd → tk.text ∈ known (addLabel c cmd) := by
    rintro ic m q v ⟨hpos, tk', htk', hv⟩ hp
    rw [hpos] at hp
    cases List.mem_singleton.mp hp
    cases htk.symm.trans htk'
    exact known_of_valueOf ht hv
  rw [← known_addLabel]
  unfold reads at hp
  rw [ha] at hp
  cases a with
  | declare | initr | noarg op => cases hp
  | onearg op | jmpi =>
    obtain ⟨_, m, q, v, h, _⟩ := h
    exact hr h hp
  | twoarg op | branch op =>
    obtain ⟨_, m, tk', v, m', q, w, ⟨_, htk', hv⟩, h, _⟩ := h
    rcases List.mem_cons.mp hp with rfl | hp
    · cases htk.symm.trans htk'
      exact known_of_valueOf ht hv
    · exact hr h hp

theorem length_recorded (cmd : Lexcmd) : (recorded cmd).length ≤ 1 := by
  unfold recorded
  split_ifs
  · cases cmd[1]? <;> simp
  · cases labelOf cmd <;> simp

/-- What the hash table knows of the lines behind, as long as none left an error. -/
structure Recorded (before : List Lexcmd) (c : Asmchip32) : Prop where
  declared : ∀ name ∈ known c, name ∈ before.flatMap declares ∨ name = "declare".toList
  once : ∀ name ∉ before.flatMap lost, (before.flatMap declares).count name ≤ 1 ∧
    (name ∈ before.flatMap declares → name ∈ known c)

theorem step_recorded {before : List Lexcmd} {c d : Asmchip32} {cmd : Lexcmd}
    (hcmd : WellLexed cmd) (h : parseStep c cmd = .ok d) (hs : ¬ Silent c cmd)
    (hr : Recorded before c) : Recorded (before ++ [cmd]) d := by
  obtain ⟨a, ha, htakes⟩ := (parseStep_ok hcmd).mp h
  obtain ⟨hknown, hnew⟩ := takes_known ha htakes hs
  have hdecl := declares_eq ha htakes
  constructor
  · intro name hname
    rw [hknown, List.mem_append] at hname
    rw [List.flatMap_append, List.mem_append, List.flatMap_singleton]
    rcases hname with hname | hname
    · exact (hr.declared name hname).imp_left .inl
    · rcases hdecl with ⟨hrec, _⟩ | hdecl
      · rw [hrec] at hname
        exact .inr (List.mem_singleton.mp hname)
      · exact .inl (.inr (hdecl ▸ List.mem_append_left _ hname))
  · intro name hname
    rw [List.flatMap_append, List.flatMap_singleton, List.mem_append, not_or] at hname
    obtain ⟨hcount, hmem⟩ := hr.once name hname.1
    have hline : (declares cmd).count name = (recorded cmd).count name ∨ name ∉ declares cmd := by
      rcases hdecl with ⟨_, hlost⟩ | hdecl
      · exact .inr (hlost ▸ hname.2)
      · rw [hdecl, List.count_append, List.count_eq_zero_of_not_mem hname.2]
        exact .inl rfl
    rw [List.flatMap_append, List.flatMap_singleton, List.count_append, List.mem_append, hknown,
      List.mem_append]
    by_cases hrec : name ∈ recorded cmd
    · have hbefore : name ∉ before.flatMap declares := fun hb => hnew name hrec (hmem hb)
      refine ⟨?_, fun _ => .inr hrec⟩
      rw [List.count_eq_zero_of_not_mem hbefore, Nat.zero_add]
      rcases hline with hline | hline
      · rw [hline]
        exact List.count_le_length.trans (length_recorded cmd)
      · rw [List.count_eq_zero_of_not_mem hline]
        exact Nat.zero_le _
    · have hzero : (declares cmd).count name = 0 := by
        rcases hline with hline | hline
        · rw [hline, List.count_eq_zero_of_not_mem hrec]
        · exact List.count_eq_zero_of_not_mem hline
      refine ⟨by rw [hzero]; exact hcount, ?_⟩
      rintro (hb | hb)
      · exact .inl (hmem hb)
      · exact absurd hb (List.count_eq_zero.mp hzero)

theorem run_recorded {before : List Lexcmd} {c d : Asmchip32} (hc : c.declare = [])
    (hlines : ∀ cmd ∈ before, WellLexed cmd)
    (hs : Along parseStep (fun c cmd => ¬ Silent c cmd) before c)
    (h : run parseStep before c = .ok d) : Recorded before d := by
  induction before using List.reverseRecOn generalizing d with
  | nil =>
    cases h
    exact ⟨by simp [known, hc], by simp⟩
  | append_singleton before cmd ih =>
    obtain ⟨e, he, hstep⟩ := (run_snoc_ok parseStep).mp h
    obtain ⟨hs, hlast⟩ := (along_append parseStep).mp hs
    exact step_recorded (hlines cmd (by simp)) hstep (hlast e he).1
      (ih (fun x hx => hlines x (by simp [hx])) hs he)

theorem run_error_none {lines : List Lexcmd} {c d : Asmchip32}
    (hlines : ∀ cmd ∈ lines, WellLexed cmd) (h : run parseStep lines c = .ok d) :
    d.error = none ↔ c.error = none ∧ Along parseStep (fun c cmd => ¬ Silent c cmd) lines c := by
  induction lines generalizing c with
  | nil =>
    cases h
    simp
  | cons cmd lines ih =>
    obtain ⟨e, he, h⟩ := bind_eq_ok.mp h
    obtain ⟨a, ha, htakes⟩ := (parseStep_ok (hlines cmd (by simp))).mp he
    rw [ih (fun x hx => hlines x (by simp [hx])) h,
      takes_error (hlines cmd (by simp)).ne_nil ha htakes, along_cons, and_assoc]
    simp [he]

theorem noneMissed_of_correct {lines : List Lexcmd} {c : Asmchip32}
    (hs : Along parseStep (fun c cmd => ¬ Silent c cmd) lines c) (hn : ¬ NameError lines) : NoneMissed c lines where
  silent := hs
  toLabel cmd hcmd name hdest hlabel := hn (.toLabel hcmd hdest hlabel)
  unread before cmd after heq p name huse _ := by
    by_contra hname
    exact hn (.undeclared heq huse hname)
  own before cmd after heq p name huse _ := by
    have hname : name ∈ before.flatMap declares := by
      by_contra hname
      exact hn (.undeclared heq huse hname)
    refine ⟨fun hl => hn (.twice fun hnodup => ?_), fun _ => hname⟩
    have hcmd : name ∈ declares cmd := by
      rw [labelOf_eq] at hl
      exact List.mem_append_left _ (List.mem_of_mem_head? hl)
    rw [heq, List.flatMap_append, List.flatMap_cons] at hnodup
    exact List.disjoint_of_nodup_append hnodup hname (List.mem_append_left _ hcmd)
  lost name _ := by
    by_contra hcount
    refine hn (.twice fun hnodup => hcount ?_)
    exact List.nodup_iff_count_le_one.mp hnodup name

section Accepted

variable {lines : List Lexcmd} {c d : Asmchip32} (hc : c.declare = [])
  (hlines : ∀ cmd ∈ lines, WellLexed cmd) (h : run parseStep lines c = .ok d)
include hc hlines h

/-- Of an accepted source in which nothing escapes the parser, the names are right. -/
theorem not_nameError_of_noneMissed (hm : NoneMissed c lines) : ¬ NameError lines := by
  rintro (⟨rfl, huse, hname⟩ | ⟨hcmd, hdest, hlabel⟩ | htwice)
  · rename_i before after cmd p name
    obtain ⟨hs, hlast⟩ := (along_append parseStep).mp hm.silent
    rw [run_append, bind_eq_ok] at h
    obtain ⟨e, he, h⟩ := h
    obtain ⟨f, hf, _⟩ := bind_eq_ok.mp h
    have hr := run_recorded hc (fun x hx => hlines x (by simp [hx])) hs he
    obtain ⟨a, ha, htakes⟩ := (parseStep_ok (hlines cmd (by simp))).mp hf
    by_cases hp : p ∈ reads cmd
    · obtain ⟨hown, hdeclare⟩ := hm.own before cmd after rfl p name huse hp
      obtain ⟨_, tk, htk, ht, rfl⟩ := huse
      rcases List.mem_append.mp (reads_known ha htakes hp htk ht) with hk | hl
      · rcases hr.declared _ hk with hd | hd
        · exact hname hd
        · exact hname (hdeclare hd)
      · exact hown (Option.mem_toList.mp hl)
    · exact hname (hm.unread before cmd after rfl p name huse hp)
  · exact hm.toLabel _ hcmd _ hdest hlabel
  · have hr := run_recorded hc hlines hm.silent h
    refine htwice (List.nodup_iff_count_le_one.mpr fun name => ?_)
    by_cases hl : name ∈ lines.flatMap lost
    · exact hm.lost name hl
    · exact (hr.once name hl).1

end Accepted

theorem parse_returns_iff {c : Asmchip32} (hlines : ∀ cmd ∈ c.vcmd, WellLexed cmd) :
    (∀ f, parse c ≠ .error (.fault f)) ↔
      Along parseStep (fun c cmd => ¬ Crashes c cmd) c.vcmd c := by
  have hstep : ∀ cmd ∈ c.vcmd, ∀ c, (¬ ∃ e, (∃ f, e = Stop.fault f) ∧ parseStep c cmd = .error e) ↔
      ¬ Crashes c cmd := by
    intro cmd hcmd c
    rw [← faults_step (hlines cmd hcmd)]
    simp [Faults]
  rw [← along_congr parseStep hstep, ← not_iff_not, ← run_error_iff]
  simp only [parse, ne_eq, not_forall, not_not]
  constructor
  · rintro ⟨f, hf⟩
    exact ⟨_, ⟨f, rfl⟩, hf⟩
  · rintro ⟨_, ⟨f, rfl⟩, hf⟩
    exact ⟨f, hf⟩

theorem parse_accepts_iff {c : Asmchip32} (hlines : ∀ cmd ∈ c.vcmd, WellLexed cmd) :
    (∃ d, parse c = .ok d) ↔ Along parseStep Accepts c.vcmd c := by
  rw [parse, run_ok_iff]
  exact along_congr parseStep fun cmd hcmd t => accepts_iff (hlines cmd hcmd)

/-- Name errors are rejected, and with them the parser does not crash, exactly where
no line crashes it and nothing escapes it in a source that it accepts. -/
theorem rejectsNames_iff (code : Text) (h : ∀ f, lexer (.new code) ≠ .error (.fault f)) :
    RejectsNames code ↔ ∀ c, lexer (.new code) = .ok c → Sound c c.vcmd := by
  cases hlex : lexer (.new code) with
  | error e =>
    have hbuild : build code = .error e := by simp [build, hlex]
    refine ⟨fun _ => nofun, fun _ => ⟨fun f => ?_, fun c hc => ?_, ?_⟩⟩
    · rw [hbuild, ← hlex]
      exact h f
    · cases hlex.symm.trans hc
    · simp [hbuild]
  | ok c =>
    have hbuild : build code = parse c := by simp [build, hlex]
    have hlines := lexer_wellLexed hlex
    obtain ⟨_, _, hc, herror⟩ := lexer_keeps hlex
    replace hc : c.declare = [] := hc
    replace herror : c.error = none := herror
    simp only [Except.ok.injEq, forall_eq', Sound]
    rw [← parse_returns_iff hlines, ← parse_accepts_iff hlines]
    constructor
    · rintro ⟨hret, hrej, hacc⟩
      rw [hbuild] at hret
      refine ⟨hret, ?_⟩
      rintro ⟨d, hd⟩
      have hs := ((run_error_none hlines hd).mp (hacc d (hbuild.trans hd))).2
      refine noneMissed_of_correct hs fun hn => ?_
      obtain ⟨e, he, _⟩ := hrej c hlex hn
      rw [hbuild, hd] at he
      cases he
    · rintro ⟨hret, hmiss⟩
      cases hp : parse c with
      | ok d =>
        have hm := hmiss ⟨d, hp⟩
        refine ⟨by simp [hbuild, hp], ?_, ?_⟩
        · intro lexed hlexed hn
          cases hlex.symm.trans hlexed
          exact absurd hn (not_nameError_of_noneMissed hc hlines hp hm)
        · intro e he
          cases (hbuild.trans hp).symm.trans he
          exact (run_error_none hlines hp).mpr ⟨herror, hm.silent⟩
      | error e =>
        cases e with
        | fault f => exact absurd hp (hret f)
        | fail d =>
          obtain ⟨t, cmd, _, hstep⟩ := run_error parseStep hp
          have herr : d.error ≠ none := complains_step t cmd d hstep
          refine ⟨by simp [hbuild, hp], fun _ _ _ => ⟨d, hbuild.trans hp, herr⟩, ?_⟩
          simp [hbuild, hp]

/-- A source that uses a name nobody declares. -/
def undeclared : Text := "declare x, ?\nmove $x, y\n".toList

theorem rejectsNames_undeclared : RejectsNames undeclared := by
  have hlex : lexer (.new undeclared) = .ok (final (lexer (.new undeclared))) :=
    ok_final (by decide +kernel)
  refine (rejectsNames_iff undeclared (by rw [hlex]; exact nofun)).mpr fun c hc => ?_
  have hlines := lexer_wellLexed hc
  cases hlex.symm.trans hc
  obtain ⟨e, he⟩ : ∃ e, parse (final (lexer (.new undeclared))) = .error (.fail e) := ⟨_, rfl⟩
  refine ⟨(parse_returns_iff hlines).mp (by rw [he]; exact nofun), fun h => ?_⟩
  obtain ⟨d, hd⟩ := (parse_accepts_iff hlines).mpr h
  cases he.symm.trans hd

/-- `parse_lvalue` finds nothing, notes the error and reads the address all the same. -/
def missing : Text := "move $x, 3\n".toList

theorem missing_crashes : (∃ c, lexer (.new missing) = .ok c) ∧ ¬ RejectsNames missing := by
  refine ⟨⟨_, ok_final (by decide +kernel)⟩, fun h => h.returns .nullDereference ?_⟩
  decide +kernel

end Asm
