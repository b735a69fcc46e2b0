import Chip32.Agreement
import Chip32.ListingLexer

/-!
# Labels in front of a line

A line may have any number of labels for the lexer. The parser takes one, and finds the
command name behind it.
-/
namespace Asm

open Runs Vm Grammar

/-- What an action emits, if anything. -/
def Action.emitted : Action → Opcode
  | .declare => .move
  | .initr => .initr
  | .noarg op | .onearg op | .twoarg op | .branch op => op
  | .jmpi => .jmp

theorem cmd_of_emits {cmd : Lexcmd} {a : Action} {ms : List Command} (h : Emits cmd a ms) :
    ∀ m ∈ ms, m.cmd = a.emitted.code := by
  cases h with
  | declare addr vs =>
    intro m hm
    obtain ⟨i, hi⟩ := List.mem_iff_getElem?.mp hm
    rw [getElem?_moves] at hi
    obtain ⟨v, _, rfl⟩ := Option.map_eq_some_iff.mp hi
    rfl
  | _ => exact List.forall_mem_singleton.mpr rfl

theorem findAction_entry {name : List Char} {a : Action} (h : findAction name = some a) :
    ∃ x ∈ actions, x.1.toList = name ∧ x.2 = a := by
  obtain ⟨x, hx, ha⟩ := Option.map_eq_some_iff.mp h
  exact ⟨x, List.mem_of_find?_eq_some hx, by simpa using List.find?_some hx, ha⟩

/-- No two commands have the same action. -/
theorem findAction_injective {name name' : List Char} {a : Action} (h : findAction name = some a)
    (h' : findAction name' = some a) : name = name' := by
  have htable : ∀ x ∈ actions, ∀ y ∈ actions, x.2 = y.2 → x.1 = y.1 := by decide +kernel
  obtain ⟨x, hx, rfl, hxa⟩ := findAction_entry h
  obtain ⟨y, hy, rfl, hya⟩ := findAction_entry h'
  rw [htable x hx y hy (hxa.trans hya.symm)]

/-- Only `jmp` and `jmpi` emit the same command, and `declare` and `move`. -/
theorem emitted_shared {name name' : List Char} {a a' : Action} (h : findAction name = some a)
    (h' : findAction name' = some a') (hcode : a.emitted.code = a'.emitted.code) :
    a = a' ∨ a = .jmpi ∧ a' = .onearg .jmp ∨ a = .onearg .jmp ∧ a' = .jmpi ∨
      a' = .declare ∨ a' = .twoarg .move := by
  have htable : ∀ x ∈ actions, ∀ y ∈ actions, x.2.emitted.code = y.2.emitted.code →
      x.2 = y.2 ∨ x.2 = .jmpi ∧ y.2 = .onearg .jmp ∨ x.2 = .onearg .jmp ∧ y.2 = .jmpi ∨
        y.2 = .declare ∨ y.2 = .twoarg .move := by decide +kernel
  obtain ⟨x, hx, _, rfl⟩ := findAction_entry h
  obtain ⟨y, hy, _, rfl⟩ := findAction_entry h'
  exact htable x hx y hy hcode

/-- A command with its arguments, and the lines around it. -/
structure Site where
  before : List Line
  after : Option Listing
  name : Ident
  operands : Operands
  opens : operands.Opens
  gap : Space
  remark : Option Remark

namespace Site

variable (u : Site) (indent indent' : Space) (labels labels' : List (Ident × Space))

def line : Line := ⟨.command indent labels u.name u.operands u.opens, u.gap, u.remark⟩

/-- The source in which the command has labels. -/
def source : Listing :=
  match u.after with
  | none => ⟨u.before, u.line indent labels⟩
  | some s => ⟨u.before ++ u.line indent labels :: s.lines, s.last⟩

/-- The lines behind the command. -/
def behind : List Line :=
  match u.after with
  | none => []
  | some s => s.lines ++ [s.last]

theorem source_lines : (u.source indent labels).lines ++ [(u.source indent labels).last] =
    u.before ++ u.line indent labels :: u.behind := by
  unfold source behind
  cases u.after <;> simp

theorem source_tokens : (u.source indent labels).tokens =
    u.before.filterMap Line.tokens ++
      tokensOf (u.line indent labels).parts :: u.behind.filterMap Line.tokens := by
  rw [Listing.tokens, source_lines, List.filterMap_append]
  rfl

theorem line_tokens : tokensOf (u.line indent labels).parts =
    labels.map (fun l => (Tktype.label, l.1.text)) ++ (.name, u.name.text) :: tokensOf u.operands.parts := by
  simp [line, Line.parts, Row.parts, tokensOf_labels, Function.comp_def]

theorem line_ends : (u.line indent labels).EndsInName ↔ (u.line indent' labels').EndsInName := by
  obtain ⟨before, after, name, operands, opens, gap, remark⟩ := u
  cases operands <;> exact Iff.rfl

variable {u indent labels} in
/-- Labels do not matter to the lexer as long as they fit. -/
theorem source_proper (h : (u.source indent labels).Proper) (hfits : (u.line indent' labels').Fits) :
    (u.source indent' labels').Proper := by
  have htight := h.tight
  have hall := h.fits
  rw [source_lines, List.forall_mem_append, List.forall_mem_cons] at htight hall
  refine ⟨?_, ?_, ?_⟩
  · rw [source_lines, List.forall_mem_append, List.forall_mem_cons]
    exact ⟨htight.1, htight.2.1, htight.2.2⟩
  · rw [source_lines, List.forall_mem_append, List.forall_mem_cons]
    exact ⟨hall.1, hfits, hall.2.2⟩
  · have hends := h.ends
    unfold source at hends ⊢
    cases hs : u.after with
    | none =>
      rw [hs] at hends
      exact mt (u.line_ends _ _ _ _).mp hends
    | some s =>
      rw [hs] at hends
      exact hends

variable {u indent labels} in
/-- The lines of the source that is read. -/
theorem exists_split {c : Asmchip32} (h : lexer (.new (u.source indent labels).text) = .ok c) :
    ∃ front cmd rest, c.vcmd = front ++ cmd :: rest ∧
      front.map shapes = u.before.filterMap Line.tokens ∧
      shapes cmd = tokensOf (u.line indent labels).parts ∧
      rest.map shapes = u.behind.filterMap Line.tokens := by
  have hs := listing_shapes h
  rw [source_tokens] at hs
  obtain ⟨front, tail, hvcmd, hfront, htail⟩ := List.map_eq_append_iff.mp hs
  obtain ⟨cmd, rest, rfl, hcmd, hrest⟩ := List.map_eq_cons_iff.mp htail
  exact ⟨front, cmd, rest, hvcmd, hfront, hcmd, hrest⟩

end Site

/-- Labels to be put in front of a command: new and distinct names that can be declared. -/
structure Labelling extends Site where
  indent : Space
  front : Space
  first : Ident × Space
  more : List (Ident × Space)
  fresh : ∀ l ∈ first :: more, ∀ xs ∈ (toSite.source indent []).tokens, l.1.text ∉ uses xs
  distinct : ((first :: more).map fun l => l.1.text).Nodup
  short : ∀ l ∈ first :: more, l.1.text.length ≤ rbhKey

namespace Labelling

variable (u : Labelling)

/-- The source without the labels. -/
def old : Text := (u.source u.indent []).text

/-- The source with them. -/
def new : Text := (u.source u.front (u.first :: u.more)).text

/-- Both sources are accepted or none is, and the commands are the same. -/
def Transparent : Prop :=
  ((∃ c, build u.old = .ok c) ↔ ∃ d, build u.new = .ok d) ∧
    ∀ c d, build u.old = .ok c → build u.new = .ok d → d.mc = c.mc

/-- `c` is the state in front of the command, and `cmd` its tokens. -/
def Reached (c : Asmchip32) (cmd : Lexcmd) : Prop :=
  ∃ lexed front rest, lexer (.new u.old) = .ok lexed ∧ lexed.vcmd = front ++ cmd :: rest ∧
    front.length = (u.before.filterMap Line.tokens).length ∧ run parseStep front lexed = .ok c

/-- The table with the first label. -/
def table (c : Asmchip32) : List Declared :=
  c.declare ++ [⟨.label, BitVec.ofNat 32 c.vcmd.length, u.first.1.text⟩]

/-- The command is a jump, the second label is the name of the other kind of jump, and with
the command name for an operand this one goes to the same place. -/
def Lands (second : List Char) : Prop :=
  ∃ c cmd dec m q v, u.Reached c cmd ∧ declareFind (u.table c) u.name.text = some dec ∧
    IsRvalue c.declare cmd 1 m q v ∧ setMode 0 false m = 0 ∧
    (second = "jmp".toList ∧ u.name.text = "jmpi".toList ∧ dec.addr = c.mccount + 1 + v ∨
      second = "jmpi".toList ∧ u.name.text = "jmp".toList ∧ v = c.mccount + 1 + dec.addr)

/-- The line fits, and what the parser takes for its command is the command, or as good as
that. -/
def Clear : Prop :=
  (u.line u.front (u.first :: u.more)).Fits ∧
    match u.more with
    | [] => u.name.text ≠ "declare".toList
    | second :: others =>
      (second.1.text = u.name.text ∧ ∃ op, findAction u.name.text = some (.noarg op)) ∨
        others = [] ∧ u.Lands second.1.text

/-- The two sources line by line. -/
structure Sides (c d : Asmchip32) where
  front : List Lexcmd
  cmd : Lexcmd
  rest : List Lexcmd
  front' : List Lexcmd
  cmd' : Lexcmd
  rest' : List Lexcmd
  lines : c.vcmd = front ++ cmd :: rest
  lines' : d.vcmd = front' ++ cmd' :: rest'
  twins : List.Forall₂ Twins front front' ∧ List.Forall₂ Twins rest rest'
  index : front.length = (u.before.filterMap Line.tokens).length
  shape : shapes cmd = (.name, u.name.text) :: tokensOf u.operands.parts
  shape' : shapes cmd' = (u.first :: u.more).map (fun l => (Tktype.label, l.1.text)) ++ shapes cmd
  lexed : (∀ tk ∈ cmd, Lexed tk) ∧ ∀ tk ∈ cmd', Lexed tk
  well : ∀ x ∈ front ++ cmd :: rest, WellLexed x
  well' : ∀ x ∈ front' ++ cmd' :: rest', WellLexed x
  free : ∀ l ∈ u.first :: u.more, ∀ x ∈ front ++ cmd :: rest, l.1.text ∉ uses (shapes x)
  free' : ∀ l ∈ u.first :: u.more, ∀ x ∈ front' ++ rest', l.1.text ∉ uses (shapes x)
  agrees : ∀ x, Agrees x c d
  empty : c.declare = [] ∧ d.declare = []

theorem twins_of_shapes {cmds cmds' : List Lexcmd} (h : cmds'.map shapes = cmds.map shapes)
    (hlexed : ∀ cmd ∈ cmds, ∀ tk ∈ cmd, Lexed tk) (hlexed' : ∀ cmd ∈ cmds', ∀ tk ∈ cmd, Lexed tk)
    (hwell : ∀ cmd ∈ cmds, WellLexed cmd) (hwell' : ∀ cmd ∈ cmds', WellLexed cmd) :
    List.Forall₂ Twins cmds cmds' := by
  induction cmds generalizing cmds' with
  | nil =>
    cases cmds' with
    | nil => exact .nil
    | cons cmd' cmds' => cases h
  | cons cmd cmds ih =>
    cases cmds' with
    | nil => cases h
    | cons cmd' cmds' =>
      obtain ⟨hhead, htail⟩ := List.cons.inj h
      obtain ⟨hl, hlexed⟩ := List.forall_mem_cons.mp hlexed
      obtain ⟨hl', hlexed'⟩ := List.forall_mem_cons.mp hlexed'
      obtain ⟨hw, hwell⟩ := List.forall_mem_cons.mp hwell
      obtain ⟨hw', hwell'⟩ := List.forall_mem_cons.mp hwell'
      exact .cons ⟨same_of_shapes hhead hl hl', hw, hw'⟩ (ih htail hlexed hlexed' hwell hwell')

variable {u} in
theorem exists_sides {c d : Asmchip32} (hc : lexer (.new u.old) = .ok c)
    (hd : lexer (.new u.new) = .ok d) : Nonempty (u.Sides c d) := by
  obtain ⟨front, cmd, rest, hlines, hfront, hcmd, hrest⟩ := u.exists_split hc
  obtain ⟨front', cmd', rest', hlines', hfront', hcmd', hrest'⟩ := u.exists_split hd
  rw [Site.line_tokens] at hcmd hcmd'
  have hlexed := hlines ▸ lexer_lexed hc
  have hlexed' := hlines' ▸ lexer_lexed hd
  have hwell := hlines ▸ lexer_wellLexed hc
  have hwell' := hlines' ▸ lexer_wellLexed hd
  obtain ⟨hlexedFront, hlexedCmd, hlexedRest⟩ :=
    (List.forall_mem_append.mp hlexed).imp_right List.forall_mem_cons.mp
  obtain ⟨hlexedFront', hlexedCmd', hlexedRest'⟩ :=
    (List.forall_mem_append.mp hlexed').imp_right List.forall_mem_cons.mp
  have hfree : ∀ l ∈ u.first :: u.more, ∀ x ∈ front ++ cmd :: rest, l.1.text ∉ uses (shapes x) := by
    intro l hl x hx
    refine u.fresh l hl (shapes x) ?_
    rw [← listing_shapes hc, hlines]
    exact List.mem_map_of_mem hx
  obtain ⟨hmc, hav, hdec, _⟩ := lexer_keeps hc
  obtain ⟨hmc', hav', hdec', _⟩ := lexer_keeps hd
  have hcount : d.vcmd.length = c.vcmd.length := by
    have hlen := congrArg List.length (hfront.trans hfront'.symm)
    have hlen' := congrArg List.length (hrest.trans hrest'.symm)
    simp only [List.length_map] at hlen hlen'
    simp only [hlines, hlines', List.length_append, List.length_cons, hlen, hlen']
  exact ⟨{
    front, cmd, rest, front', cmd', rest'
    lines := hlines
    lines' := hlines'
    twins := ⟨twins_of_shapes (hfront'.trans hfront.symm) hlexedFront hlexedFront'
        (fun x hx => hwell x (by simp [hx])) fun x hx => hwell' x (by simp [hx]),
      twins_of_shapes (hrest'.trans hrest.symm) hlexedRest hlexedRest'
        (fun x hx => hwell x (by simp [hx])) fun x hx => hwell' x (by simp [hx])⟩
    index := by simpa using congrArg List.length hfront
    shape := hcmd
    shape' := hcmd'.trans (congrArg _ hcmd.symm)
    lexed := ⟨hlexedCmd, hlexedCmd'⟩
    well := hwell
    well' := hwell'
    free := hfree
    free' := by
      intro l hl x hx
      have hmem : shapes x ∈ (front ++ rest).map shapes := by
        rw [List.map_append, hfront, hrest, ← hfront', ← hrest', ← List.map_append]
        exact List.mem_map_of_mem hx
      obtain ⟨y, hy, he⟩ := List.mem_map.mp hmem
      rw [← he]
      refine hfree l hl y ?_
      exact (List.mem_append.mp hy).elim (List.mem_append_left _) fun hy => by simp [hy]
    agrees := fun x => ⟨hmc'.trans hmc.symm, hav'.trans hav.symm, hcount, fun y _ => by
      rw [hdec, hdec']
      rfl⟩
    empty := ⟨hdec, hdec'⟩ }⟩

section Line

variable {u} {c d s s' t t' : Asmchip32} (k : u.Sides c d)

theorem Sides.head : ∃ tk args, k.cmd = tk :: args ∧ tk.type = .name ∧ tk.text = u.name.text := by
  obtain ⟨tk, args, hcmd, htk, _⟩ := List.map_eq_cons_iff.mp k.shape
  obtain ⟨htype, htext⟩ := Prod.mk.inj htk
  exact ⟨tk, args, hcmd, htype, htext⟩

/-- The labelled line begins with the first label. -/
theorem Sides.head' : ∃ tk behind, k.cmd' = tk :: behind ∧ tk.type = .label ∧
    tk.text = u.first.1.text ∧
    shapes behind = u.more.map (fun l => (Tktype.label, l.1.text)) ++ shapes k.cmd := by
  obtain ⟨tk, behind, hcmd, htk, hbehind⟩ := List.map_eq_cons_iff.mp k.shape'
  obtain ⟨htype, htext⟩ := Prod.mk.inj htk
  exact ⟨tk, behind, hcmd, htype, htext, hbehind⟩

theorem Sides.labelOf_eq : labelOf k.cmd = none := by
  obtain ⟨tk, args, hcmd, htype, _⟩ := k.head
  simp [hcmd, labelOf, htype]

theorem Sides.labelOf_eq' : labelOf k.cmd' = some u.first.1.text := by
  obtain ⟨tk, behind, hcmd, htype, htext, _⟩ := k.head'
  simp [hcmd, labelOf, htype, htext]

theorem Sides.firstPos_eq : firstPos k.cmd = 1 := by simp [firstPos, k.labelOf_eq]

theorem Sides.firstPos_eq' : firstPos k.cmd' = 2 := by simp [firstPos, k.labelOf_eq']

theorem Sides.actionOf_eq : actionOf k.cmd = findAction u.name.text := by
  obtain ⟨tk, args, hcmd, _, htext⟩ := k.head
  rw [actionOf, k.labelOf_eq, hcmd, ← htext]
  rfl

theorem Sides.mem_cmd : k.cmd ∈ k.front ++ k.cmd :: k.rest := by simp

theorem Sides.mem_cmd' : k.cmd' ∈ k.front' ++ k.cmd' :: k.rest' := by simp

theorem Sides.step_ok : parseStep s k.cmd = .ok t ↔
    ∃ a, findAction u.name.text = some a ∧ a.Takes s k.cmd t := by
  rw [parseStep_ok (k.well _ k.mem_cmd), k.actionOf_eq]

/-- The table behind the labels has one name more. -/
theorem Sides.labelled (h : Agrees u.first.1.text s s')
    (hnone : declareFind s'.declare u.first.1.text = none) :
    Labelled u.first.1.text s s' k.cmd k.cmd' := by
  have hfresh : Fresh s'.declare u.first.1.text := ⟨hnone, u.short _ List.mem_cons_self⟩
  refine ⟨h, iff_of_true ?_ ?_, ?_⟩
  · rw [LabelFresh, k.labelOf_eq']
    rintro _ ⟨⟩
    exact hfresh
  · rw [LabelFresh, k.labelOf_eq]
    exact nofun
  · rw [addLabel_of_none k.labelOf_eq, addLabel, k.labelOf_eq']
    exact h.late rfl

theorem Sides.actionOf_one (hmore : u.more = []) : actionOf k.cmd' = findAction u.name.text := by
  obtain ⟨tk, behind, hcmd, _, _, hbehind⟩ := k.head'
  rw [hmore, List.map_nil, List.nil_append, k.shape] at hbehind
  obtain ⟨tk', args, rfl, htk', _⟩ := List.map_eq_cons_iff.mp hbehind
  rw [actionOf, k.labelOf_eq', hcmd, ← (Prod.mk.inj htk').2]
  rfl

theorem Sides.carries (hmore : u.more = []) : Carries k.cmd k.cmd' ∧ Carries k.cmd' k.cmd := by
  obtain ⟨tk, behind, hcmd, _, _, hbehind⟩ := k.head'
  rw [hmore, List.map_nil, List.nil_append] at hbehind
  have hlexed : ∀ tk ∈ behind, Lexed tk := fun tk htk =>
    k.lexed.2 tk (hcmd ▸ List.mem_cons_of_mem _ htk)
  have hsame := same_of_shapes hbehind k.lexed.1 hlexed
  have hshift : ∀ i, k.cmd'[2 + i]? = behind[1 + i]? := by
    intro i
    have hsucc : 2 + i = 1 + i + 1 := by omega
    rw [hcmd, hsucc, List.getElem?_cons_succ]
  constructor
  · intro i tk htk
    rw [k.firstPos_eq] at htk
    rw [k.firstPos_eq', hshift]
    exact same_at hsame htk
  · intro i tk htk
    rw [k.firstPos_eq', hshift] at htk
    rw [k.firstPos_eq]
    exact same_at (List.Forall₂.flip (hsame.imp fun _ _ hs => hs.symm)) htk

theorem Sides.avoids : Avoids u.first.1.text k.cmd :=
  avoids_of_uses (k.free _ List.mem_cons_self _ k.mem_cmd)

theorem Sides.avoids' (hmore : u.more = []) : Avoids u.first.1.text k.cmd' := by
  intro i tk htk
  obtain ⟨tk', htk', hsame⟩ := (k.carries hmore).2 i tk htk
  rw [← hsame.text]
  exact k.avoids i tk' htk'

/-- Behind one label every command but `declare` does what it does without. -/
theorem Sides.step_one (hmore : u.more = []) (hname : u.name.text ≠ "declare".toList)
    (h : Agrees u.first.1.text s s') (hnone : declareFind s'.declare u.first.1.text = none) :
    (∀ t, parseStep s k.cmd = .ok t →
        ∃ t', parseStep s' k.cmd' = .ok t' ∧ Agrees u.first.1.text t t') ∧
      ∀ t', parseStep s' k.cmd' = .ok t' →
        ∃ t, parseStep s k.cmd = .ok t ∧ Agrees u.first.1.text t t' := by
  have hl := k.labelled h hnone
  have hstep' : ∀ t', parseStep s' k.cmd' = .ok t' ↔
      ∃ a, findAction u.name.text = some a ∧ a.Takes s' k.cmd' t' := by
    intro t'
    rw [parseStep_ok (k.well' _ k.mem_cmd'), k.actionOf_one hmore]
  have hother : ∀ {a}, findAction u.name.text = some a → a ≠ .declare := by
    rintro a ha rfl
    exact hname (findAction_injective ha (by decide))
  constructor
  · intro t ht
    obtain ⟨a, ha, ht⟩ := k.step_ok.mp ht
    obtain ⟨t', ht', h'⟩ := hl.takes (k.carries hmore).1 k.avoids (hother ha) ht
    exact ⟨t', (hstep' t').mpr ⟨a, ha, ht'⟩, h'⟩
  · intro t' ht'
    obtain ⟨a, ha, ht'⟩ := (hstep' t').mp ht'
    have hback : Labelled u.first.1.text s' s k.cmd' k.cmd :=
      ⟨hl.agrees.symm, hl.fresh.symm, hl.added.symm⟩
    obtain ⟨t, ht, h'⟩ := hback.takes (k.carries hmore).2 (k.avoids' hmore) (hother ha) ht'
    exact ⟨t, k.step_ok.mpr ⟨a, ha, ht⟩, h'.symm⟩

variable {second : Ident × Space} {others : List (Ident × Space)}

/-- The second label stands where the parser looks for the command name. -/
theorem Sides.token_one (hmore : u.more = second :: others) :
    ∃ tk, k.cmd'[1]? = some tk ∧ tk.type = .label ∧ tk.text = second.1.text := by
  obtain ⟨tk, behind, hcmd, _, _, hbehind⟩ := k.head'
  rw [hmore, List.map_cons, List.cons_append] at hbehind
  obtain ⟨tk', _, rfl, htk', _⟩ := List.map_eq_cons_iff.mp hbehind
  obtain ⟨htype, htext⟩ := Prod.mk.inj htk'
  exact ⟨tk', by rw [hcmd]; rfl, htype, htext⟩

theorem Sides.actionOf_second (hmore : u.more = second :: others) :
    actionOf k.cmd' = findAction second.1.text := by
  obtain ⟨tk, htk, _, htext⟩ := k.token_one hmore
  rw [actionOf, k.labelOf_eq', Option.isSome_some, if_pos rfl, htk, Option.bind_some, htext]

/-- Where its first operand would be stands the command name or one more label. -/
theorem Sides.token_two (hmore : u.more = second :: others) :
    ∃ tk, k.cmd'[2]? = some tk ∧ (others = [] ∧ tk.type = .name ∧ tk.text = u.name.text ∨
      others ≠ [] ∧ tk.type = .label) := by
  obtain ⟨tk, behind, hcmd, _, _, hbehind⟩ := k.head'
  rw [hmore, List.map_cons, List.cons_append] at hbehind
  obtain ⟨tk', behind', rfl, _, hbehind'⟩ := List.map_eq_cons_iff.mp hbehind
  rw [k.shape] at hbehind'
  cases others with
  | nil =>
    obtain ⟨tk'', _, rfl, htk'', _⟩ := List.map_eq_cons_iff.mp hbehind'
    obtain ⟨htype, htext⟩ := Prod.mk.inj htk''
    exact ⟨tk'', by rw [hcmd]; rfl, .inl ⟨rfl, htype, htext⟩⟩
  | cons third others =>
    obtain ⟨tk'', _, rfl, htk'', _⟩ := List.map_eq_cons_iff.mp hbehind'
    exact ⟨tk'', by rw [hcmd]; rfl, .inr ⟨List.cons_ne_nil _ _, (Prod.mk.inj htk'').1⟩⟩

theorem Sides.step_second (hmore : u.more = second :: others) : parseStep s' k.cmd' = .ok t' ↔
    ∃ a, findAction second.1.text = some a ∧ a.Takes s' k.cmd' t' := by
  rw [parseStep_ok (k.well' _ k.mem_cmd'), k.actionOf_second hmore]

theorem Sides.isRvalue_third (hmore : u.more = second :: others) {mode : Option Mode} {q : Nat}
    {v : Word} : IsRvalue (addLabel s' k.cmd').declare k.cmd' 2 mode q v ↔
      others = [] ∧ mode = none ∧ q = 2 ∧
        (declareFind (addLabel s' k.cmd').declare u.name.text).map Declared.addr = some v := by
  obtain ⟨tk, htk, ⟨hnil, htype, htext⟩ | ⟨hnil, htype⟩⟩ := k.token_two hmore
  · constructor
    · rintro ⟨hpos, tk', htk', hv⟩
      rw [rvaluePos, htk, Option.map_some, htype] at hpos
      cases hpos
      cases htk.symm.trans htk'
      refine ⟨hnil, rfl, rfl, ?_⟩
      simpa only [valueOf, htype, htext] using hv
    · rintro ⟨_, rfl, rfl, hv⟩
      refine ⟨by rw [rvaluePos, htk, Option.map_some, htype]; rfl, tk, htk, ?_⟩
      simpa only [valueOf, htype, htext] using hv
  · refine iff_of_false ?_ fun h => hnil h.1
    rintro ⟨hpos, tk', htk', hv⟩
    rw [rvaluePos, htk, Option.map_some, htype] at hpos
    cases hpos
    cases htk.symm.trans htk'
    simp [valueOf, htype] at hv

theorem Sides.takesOne_third (hmore : u.more = second :: others) {m : BitVec 8 → Word → Command}
    (hfresh : LabelFresh s'.declare k.cmd') : TakesOne m s' k.cmd' t' ↔ others = [] ∧
      ∃ dec, declareFind (addLabel s' k.cmd').declare u.name.text = some dec ∧
        t' = (addLabel s' k.cmd').emit (m 0 dec.addr) := by
  rw [TakesOne, k.firstPos_eq']
  constructor
  · rintro ⟨_, mode, q, v, hr, rfl⟩
    obtain ⟨hnil, rfl, _, hv⟩ := (k.isRvalue_third hmore).mp hr
    obtain ⟨dec, hdec, rfl⟩ := Option.map_eq_some_iff.mp hv
    exact ⟨hnil, dec, hdec, rfl⟩
  · rintro ⟨hnil, dec, hdec, rfl⟩
    refine ⟨hfresh, none, 2, dec.addr, (k.isRvalue_third hmore).mpr ⟨hnil, rfl, rfl, ?_⟩, rfl⟩
    rw [hdec, Option.map_some]

/-- What is left of a line with two labels or more: a command without operands, or one
with the command name for its operand. -/
theorem Sides.takes_second {a : Action} (hmore : u.more = second :: others)
    (hfresh : LabelFresh s'.declare k.cmd') (ht : a.Takes s' k.cmd' t') :
    (∃ op, a = .noarg op ∧ t' = (addLabel s' k.cmd').emit ⟨0, op.code, 0, 0⟩) ∨
      others = [] ∧ ∃ dec, declareFind (addLabel s' k.cmd').declare u.name.text = some dec ∧
        ((∃ op, a = .onearg op ∧ t' = (addLabel s' k.cmd').emit ⟨0, op.code, dec.addr, 0⟩) ∨
          a = .jmpi ∧
            t' = (addLabel s' k.cmd').emit ⟨0, Opcode.jmp.code, s'.mccount + 1 + dec.addr, 0⟩) := by
  have hthird : ∀ {tk}, k.cmd'[2]? = some tk → tk.type = .name ∨ tk.type = .label := by
    intro tk htk
    obtain ⟨tk', htk', h⟩ := k.token_two hmore
    cases htk.symm.trans htk'
    exact h.imp (fun h => h.2.1) fun h => h.2
  have htwo : ∀ {m}, ¬ TakesTwo m s' k.cmd' t' := by
    rintro m ⟨_, mode, tk, v, mode', q, w, ⟨hm, _⟩, _⟩
    rw [k.firstPos_eq'] at hm
    obtain ⟨type, htype, hm⟩ := Option.bind_eq_some_iff.mp hm
    obtain ⟨tk, htk, rfl⟩ := Option.map_eq_some_iff.mp htype
    rcases hthird htk with h | h <;> rw [h] at hm <;> cases hm
  cases a with
  | declare =>
    obtain ⟨tk, _, _, _, _, _, htk, htype, _⟩ := ht
    obtain ⟨tk', htk', htype', _⟩ := k.token_one hmore
    cases htk.symm.trans htk'
    cases htype.symm.trans htype'
  | initr =>
    obtain ⟨_, tk, htk, htype, _⟩ := ht
    rw [k.firstPos_eq'] at htk
    rcases hthird htk with h | h <;> cases htype.symm.trans h
  | noarg op =>
    cases ht
    exact .inl ⟨op, rfl, by rw [tryLabel_fresh hfresh]⟩
  | onearg op =>
    simp only [Action.Takes] at ht
    obtain ⟨hnil, dec, hdec, ht⟩ := (k.takesOne_third hmore hfresh).mp ht
    exact .inr ⟨hnil, dec, hdec, .inl ⟨op, rfl, ht⟩⟩
  | jmpi =>
    simp only [Action.Takes] at ht
    obtain ⟨hnil, dec, hdec, ht⟩ := (k.takesOne_third hmore hfresh).mp ht
    exact .inr ⟨hnil, dec, hdec, .inr ⟨rfl, ht⟩⟩
  | twoarg op | branch op =>
    simp only [Action.Takes] at ht
    exact absurd ht htwo

theorem Sides.reached (hc : lexer (.new u.old) = .ok c) (hs : run parseStep k.front c = .ok s) :
    u.Reached s k.cmd := ⟨c, k.front, k.rest, hc, k.lines, k.index, hs⟩

theorem Sides.reached_unique (hc : lexer (.new u.old) = .ok c)
    (hs : run parseStep k.front c = .ok s) {e : Asmchip32} {cmd : Lexcmd} (h : u.Reached e cmd) :
    e = s ∧ cmd = k.cmd := by
  obtain ⟨lexed, front, rest, hlex, hlines, hindex, hrun⟩ := h
  cases hc.symm.trans hlex
  rw [k.lines] at hlines
  obtain ⟨hfront, htail⟩ := List.append_inj hlines (k.index.trans hindex.symm)
  rw [← hfront, hs] at hrun
  exact ⟨(Except.ok.inj hrun).symm, (List.cons.inj htail).1.symm⟩

/-- Both tables have the first label now. -/
theorem Sides.find_table (h : Agrees u.first.1.text s s')
    (hnone : declareFind s.declare u.first.1.text = none)
    (hnone' : declareFind s'.declare u.first.1.text = none) (y : List Char) :
    declareFind (addLabel s' k.cmd').declare y = declareFind (u.table s) y := by
  have htable : (addLabel s' k.cmd').declare =
      s'.declare ++ [⟨.label, BitVec.ofNat 32 s.vcmd.length, u.first.1.text⟩] := by
    rw [addLabel, k.labelOf_eq', h.count]
    rfl
  rw [htable, table, declareFind_snoc, declareFind_snoc]
  by_cases hy : y = u.first.1.text
  · rw [hy, hnone, hnone']
  · rw [h.found y hy]

/-- The states in front of the line. -/
structure Meets (u : Labelling) (s s' : Asmchip32) (cmd : Lexcmd) : Prop where
  agrees : Agrees u.first.1.text s s'
  undeclared : ∀ l ∈ u.first :: u.more, declareFind s.declare l.1.text = none
  missing : declareFind s'.declare u.first.1.text = none
  reached : u.Reached s cmd
  unique : ∀ e cmd', u.Reached e cmd' → e = s ∧ cmd' = cmd

theorem Sides.labelFresh (h : Meets u s s' k.cmd) : LabelFresh s'.declare k.cmd' := by
  rw [LabelFresh, k.labelOf_eq']
  rintro _ ⟨⟩
  exact ⟨h.missing, u.short _ List.mem_cons_self⟩

theorem Sides.find_meets (h : Meets u s s' k.cmd) (y : List Char) :
    declareFind (addLabel s' k.cmd').declare y = declareFind (u.table s) y :=
  k.find_table h.agrees (h.undeclared _ List.mem_cons_self) h.missing y

theorem Sides.step_noarg {op : Opcode} (hmore : u.more = second :: others)
    (hname : second.1.text = u.name.text) (hop : findAction u.name.text = some (.noarg op))
    (h : Meets u s s' k.cmd) : ∃ t t', parseStep s k.cmd = .ok t ∧ parseStep s' k.cmd' = .ok t' ∧
      Agrees u.first.1.text t t' := by
  have hop' : findAction second.1.text = some (.noarg op) := hname ▸ hop
  exact ⟨_, _, k.step_ok.mpr ⟨_, hop, rfl⟩, (k.step_second hmore).mpr ⟨_, hop', rfl⟩,
    (k.labelled h.agrees h.missing).tryLabel.emit _⟩

theorem Sides.step_lands (hmore : u.more = [second]) (h : Meets u s s' k.cmd)
    (hlands : u.Lands second.1.text) : ∃ t t', parseStep s k.cmd = .ok t ∧
      parseStep s' k.cmd' = .ok t' ∧ Agrees u.first.1.text t t' := by
  obtain ⟨e, cmd, dec, m, q, v, hreached, hdec, hr, hmode, hjump⟩ := hlands
  obtain ⟨rfl, rfl⟩ := h.unique e cmd hreached
  rw [← k.find_meets h] at hdec
  have hadd := (k.labelled h.agrees h.missing).added
  rw [addLabel_of_none k.labelOf_eq] at hadd
  have htakes : ∀ m' : BitVec 8 → Word → Command, TakesOne m' e k.cmd (e.emit (m' 0 v)) := by
    intro m'
    refine ⟨by simp [LabelFresh, k.labelOf_eq], m, q, v, ?_, ?_⟩
    · rwa [addLabel_of_none k.labelOf_eq, k.firstPos_eq]
    · rw [addLabel_of_none k.labelOf_eq, hmode]
  have htakes' : ∀ m' : BitVec 8 → Word → Command,
      TakesOne m' s' k.cmd' ((addLabel s' k.cmd').emit (m' 0 dec.addr)) := fun m' =>
    (k.takesOne_third hmore (k.labelFresh h)).mpr ⟨rfl, dec, hdec, rfl⟩
  rcases hjump with ⟨hsecond, hname, hv⟩ | ⟨hsecond, hname, hv⟩
  · refine ⟨_, _, k.step_ok.mpr ⟨.jmpi, by rw [hname]; decide,
        htakes fun f w => ⟨f, Opcode.jmp.code, e.mccount + 1 + w, 0⟩⟩,
      (k.step_second hmore).mpr ⟨.onearg .jmp, by rw [hsecond]; decide,
        htakes' fun f w => ⟨f, Opcode.jmp.code, w, 0⟩⟩, ?_⟩
    rw [hv]
    exact hadd.emit _
  · refine ⟨_, _, k.step_ok.mpr ⟨.onearg .jmp, by rw [hname]; decide,
        htakes fun f w => ⟨f, Opcode.jmp.code, w, 0⟩⟩,
      (k.step_second hmore).mpr ⟨.jmpi, by rw [hsecond]; decide,
        htakes' fun f w => ⟨f, Opcode.jmp.code, s'.mccount + 1 + w, 0⟩⟩, ?_⟩
    rw [hv, h.agrees.abreast.mccount]
    exact hadd.emit _

/-- The line does in one source what it does in the other. -/
theorem Sides.step_clear (h : Meets u s s' k.cmd) (hclear : u.Clear) :
    (∀ t, parseStep s k.cmd = .ok t →
        ∃ t', parseStep s' k.cmd' = .ok t' ∧ Agrees u.first.1.text t t') ∧
      ∀ t', parseStep s' k.cmd' = .ok t' →
        ∃ t, parseStep s k.cmd = .ok t ∧ Agrees u.first.1.text t t' := by
  obtain ⟨_, hname⟩ := hclear
  cases hmore : u.more with
  | nil =>
    rw [hmore] at hname
    exact k.step_one hmore hname h.agrees h.missing
  | cons second others =>
    rw [hmore] at hname
    have hboth : ∃ t t', parseStep s k.cmd = .ok t ∧ parseStep s' k.cmd' = .ok t' ∧
        Agrees u.first.1.text t t' := by
      rcases hname with ⟨hsame, op, hop⟩ | ⟨rfl, hlands⟩
      · exact k.step_noarg hmore hsame hop h
      · exact k.step_lands hmore h hlands
    obtain ⟨t, t', ht, ht', h'⟩ := hboth
    constructor
    · intro t₁ ht₁
      cases ht.symm.trans ht₁
      exact ⟨t', ht', h'⟩
    · intro t₁ ht₁
      cases ht'.symm.trans ht₁
      exact ⟨t, ht, h'⟩

/-- A `declare` behind a label takes the word `declare` for the name, and its name for the
address. -/
theorem Sides.not_declare (hmore : u.more = []) (ht : TakesDeclare s k.cmd t)
    (ht' : TakesDeclare s' k.cmd' t') : False := by
  obtain ⟨tk, _, _, _, _, _, htk, hname, _⟩ := ht
  obtain ⟨tk', pl, addr, dauto, _, _, _, _, hpl, hplace, _⟩ := ht'
  obtain ⟨pl', hpl', hsame⟩ := (k.carries hmore).1 0 tk (by rw [k.firstPos_eq]; exact htk)
  rw [k.firstPos_eq'] at hpl'
  cases hpl.symm.trans hpl'
  simp [place, hsame.type, hname] at hplace

/-- The second label is not declared. -/
theorem Sides.second_missing (h : Meets u s s' k.cmd) (hmore : u.more = second :: others) :
    declareFind (u.table s) second.1.text = none := by
  have hmem : second ∈ u.first :: u.more := by simp [hmore]
  have hne : u.first.1.text ≠ second.1.text := by
    have hdistinct := u.distinct
    rw [hmore] at hdistinct
    simp only [List.map_cons, List.nodup_cons, List.mem_cons, not_or] at hdistinct
    exact hdistinct.1.1
  rw [table, declareFind_snoc, h.undeclared second hmem, if_neg hne]
  rfl

/-- A single command that the labelled line emits is the one that the line emits. -/
theorem Sides.emitted {a : Action} (h : Meets u s s' k.cmd) (ht : a.Takes s k.cmd t)
    (hmc : t'.mc = t.mc) {m : Command} (hm : t' = (addLabel s' k.cmd').emit m) :
    t.mc = s.mc ++ [m] ∧ a.emitted.code = m.cmd := by
  have hlast : t.mc = s.mc ++ [m] := by
    rw [← hmc, hm, ← h.agrees.mc]
    rfl
  obtain ⟨ms, hms, hemits⟩ := takes_emits ht
  have hone : ms = [m] := List.append_cancel_left (hms.symm.trans hlast)
  exact ⟨hlast, (cmd_of_emits hemits m (by simp [hone])).symm⟩

/-- The words of a jump that is taken in front of the labels. -/
theorem Sides.jump {m' : BitVec 8 → Word → Command} (ht : TakesOne m' s k.cmd t) {m : Command}
    (hlast : t.mc = s.mc ++ [m]) :
    ∃ mode q v, IsRvalue s.declare k.cmd 1 mode q v ∧ m = m' (setMode 0 false mode) v := by
  obtain ⟨_, mode, q, v, hr, rfl⟩ := ht
  rw [addLabel_of_none k.labelOf_eq, k.firstPos_eq] at hr
  rw [addLabel_of_none k.labelOf_eq] at hlast
  exact ⟨mode, q, v, hr, (List.singleton_inj.mp (List.append_cancel_left hlast)).symm⟩

theorem Sides.not_declare_of_steps (hmore : u.more = []) (ht : parseStep s k.cmd = .ok t)
    (ht' : parseStep s' k.cmd' = .ok t') : u.name.text ≠ "declare".toList := by
  intro hname
  have hdeclare : findAction u.name.text = some .declare := by
    rw [hname]
    decide
  obtain ⟨a, ha, ht⟩ := k.step_ok.mp ht
  obtain ⟨a', ha', ht'⟩ := (parseStep_ok (k.well' _ k.mem_cmd')).mp ht'
  cases ha.symm.trans hdeclare
  cases ((k.actionOf_one hmore).symm.trans ha').symm.trans hdeclare
  exact k.not_declare hmore ht ht'

/-- The command name is no second label when it has an address. -/
theorem Sides.name_ne (h : Meets u s s' k.cmd) (hmore : u.more = second :: others)
    {dec : Declared} (hdec : declareFind (u.table s) u.name.text = some dec) :
    u.name.text ≠ second.1.text := by
  intro he
  rw [he, k.second_missing h hmore] at hdec
  cases hdec

/-- Another command with one operand that emits the same is `jmp` for a `jmpi`. -/
theorem Sides.lands_of_onearg {a : Action} {op : Opcode} {dec : Declared}
    (h : Meets u s s' k.cmd) (hmore : u.more = second :: others)
    (ha : findAction u.name.text = some a) (ht : a.Takes s k.cmd t) (hmc : t'.mc = t.mc)
    (ha' : findAction second.1.text = some (.onearg op))
    (hdec : declareFind (u.table s) u.name.text = some dec)
    (hemit : t' = (addLabel s' k.cmd').emit ⟨0, op.code, dec.addr, 0⟩) :
    u.Lands second.1.text := by
  obtain ⟨hlast, hcode⟩ := k.emitted h ht hmc hemit
  rcases emitted_shared ha ha' hcode with rfl | ⟨rfl, h'⟩ | ⟨_, h'⟩ | h' | h'
  · exact absurd (findAction_injective ha ha') (k.name_ne h hmore hdec)
  · cases h'
    simp only [Action.Takes] at ht
    obtain ⟨mode, q, v, hr, hm⟩ := k.jump ht hlast
    obtain ⟨hflags, _, hv, _⟩ := Command.mk.inj hm
    exact ⟨s, k.cmd, dec, mode, q, v, h.reached, hdec, hr, hflags.symm,
      .inl ⟨findAction_injective ha' (by decide), findAction_injective ha (by decide), hv⟩⟩
  all_goals cases h'

/-- And the other way round. -/
theorem Sides.lands_of_jmpi {a : Action} {dec : Declared} (h : Meets u s s' k.cmd)
    (hmore : u.more = second :: others) (ha : findAction u.name.text = some a)
    (ht : a.Takes s k.cmd t) (hmc : t'.mc = t.mc) (ha' : findAction second.1.text = some .jmpi)
    (hdec : declareFind (u.table s) u.name.text = some dec)
    (hemit : t' = (addLabel s' k.cmd').emit
      ⟨0, Opcode.jmp.code, s'.mccount + 1 + dec.addr, 0⟩) : u.Lands second.1.text := by
  obtain ⟨hlast, hcode⟩ := k.emitted h ht hmc hemit
  rcases emitted_shared ha ha' hcode with rfl | ⟨_, h'⟩ | ⟨rfl, _⟩ | h' | h'
  · exact absurd (findAction_injective ha ha') (k.name_ne h hmore hdec)
  · cases h'
  · simp only [Action.Takes] at ht
    obtain ⟨mode, q, v, hr, hm⟩ := k.jump ht hlast
    obtain ⟨hflags, _, hv, _⟩ := Command.mk.inj hm
    rw [h.agrees.abreast.mccount] at hv
    exact ⟨s, k.cmd, dec, mode, q, v, h.reached, hdec, hr, hflags.symm,
      .inr ⟨findAction_injective ha' (by decide), findAction_injective ha (by decide), hv.symm⟩⟩
  all_goals cases h'

/-- Where both lines are taken and emit the same, the labels are clear. -/
theorem Sides.clear_of_steps (h : Meets u s s' k.cmd)
    (hfits : (u.line u.front (u.first :: u.more)).Fits) (ht : parseStep s k.cmd = .ok t)
    (ht' : parseStep s' k.cmd' = .ok t') (hmc : t'.mc = t.mc) : u.Clear := by
  refine ⟨hfits, ?_⟩
  cases hmore : u.more with
  | nil => exact k.not_declare_of_steps hmore ht ht'
  | cons second others =>
    obtain ⟨a, ha, ht⟩ := k.step_ok.mp ht
    obtain ⟨a', ha', ht'⟩ := (k.step_second hmore).mp ht'
    rcases k.takes_second hmore (k.labelFresh h) ht' with
      ⟨op, rfl, hemit⟩ | ⟨hnil, dec, hdec, hjump⟩
    · -- a command without operands is emitted by a line of the same name only
      obtain ⟨_, hcode⟩ := k.emitted h ht hmc hemit
      rcases emitted_shared ha ha' hcode with rfl | ⟨_, h'⟩ | ⟨_, h'⟩ | h' | h'
      · exact .inl ⟨findAction_injective ha' ha, op, ha⟩
      all_goals cases h'
    · rw [k.find_meets h] at hdec
      rcases hjump with ⟨op, rfl, hemit⟩ | ⟨rfl, hemit⟩
      · exact .inr ⟨hnil, k.lands_of_onearg h hmore ha ht hmc ha' hdec hemit⟩
      · exact .inr ⟨hnil, k.lands_of_jmpi h hmore ha ht hmc ha' hdec hemit⟩

end Line

section Source

variable {u} {c d e f : Asmchip32}

theorem build_split {code : Text} {lexed : Asmchip32} (hlex : lexer (.new code) = .ok lexed)
    {front rest : List Lexcmd} {cmd : Lexcmd} (hlines : lexed.vcmd = front ++ cmd :: rest) :
    build code = .ok e ↔ ∃ s t, run parseStep front lexed = .ok s ∧ parseStep s cmd = .ok t ∧
      run parseStep rest t = .ok e := by
  rw [build, hlex, ok_bind, parse, hlines, run_append, bind_eq_ok]
  simp only [run_cons, bind_eq_ok]
  exact exists_congr fun s => exists_and_left.symm

variable (k : u.Sides c d)

theorem Sides.meets {s s' : Asmchip32} (hc : lexer (.new u.old) = .ok c)
    (hs : run parseStep k.front c = .ok s) (hs' : run parseStep k.front' d = .ok s')
    (h : Agrees u.first.1.text s s') : Meets u s s' k.cmd where
  agrees := h
  undeclared := by
    intro l hl
    refine run_undeclared (fun x hx => k.well x (List.mem_append_left _ hx))
      (fun x hx => k.free l hl x (List.mem_append_left _ hx)) ?_ hs
    rw [k.empty.1]
    rfl
  missing := by
    refine run_undeclared (fun x hx => k.well' x (List.mem_append_left _ hx))
      (fun x hx => k.free' _ List.mem_cons_self x (List.mem_append_left _ hx)) ?_ hs'
    rw [k.empty.2]
    rfl
  reached := k.reached hc hs
  unique _ _ := k.reached_unique hc hs

theorem Sides.front_free : ∀ x ∈ k.front, u.first.1.text ∉ uses (shapes x) := fun x hx =>
  k.free _ List.mem_cons_self x (List.mem_append_left _ hx)

theorem Sides.rest_free : ∀ x ∈ k.rest, u.first.1.text ∉ uses (shapes x) := fun x hx =>
  k.free _ List.mem_cons_self x (by simp [hx])

/-- An accepted source is accepted with clear labels, as the same commands. -/
theorem Clear.accepts (hclear : u.Clear) (h : build u.old = .ok e) :
    ∃ f, build u.new = .ok f ∧ f.mc = e.mc := by
  obtain ⟨c, hc, _⟩ := bind_eq_ok.mp h
  have hproper := Site.source_proper _ _ ((lexer_listing _).mp ⟨c, hc⟩) hclear.1
  obtain ⟨d, hd⟩ := (lexer_listing _).mpr hproper
  obtain ⟨k⟩ := exists_sides hc hd
  obtain ⟨s, t, hs, ht, he⟩ := (build_split hc k.lines).mp h
  obtain ⟨s', hs', hagrees⟩ := (k.agrees _).run k.twins.1 k.front_free hs
  obtain ⟨t', ht', hagrees'⟩ := (k.step_clear (k.meets hc hs hs' hagrees) hclear).1 t ht
  obtain ⟨f, hf, hagrees''⟩ := hagrees'.run k.twins.2 k.rest_free he
  exact ⟨f, (build_split hd k.lines').mpr ⟨s', t', hs', ht', hf⟩, hagrees''.mc⟩

theorem old_fits (h : (u.line u.front (u.first :: u.more)).Fits) : (u.line u.indent []).Fits := by
  rw [Line.Fits, Site.line_tokens] at h ⊢
  simp only [List.length_append, List.length_map] at h ⊢
  exact le_trans (by simp) h

theorem twins_symm {cmds cmds' : List Lexcmd} (h : List.Forall₂ Twins cmds cmds') :
    List.Forall₂ Twins cmds' cmds := List.Forall₂.flip (h.imp fun _ _ ht => ht.symm)

/-- And a source that is accepted with clear labels is accepted without. -/
theorem Clear.accepted (hclear : u.Clear) (h : build u.new = .ok f) : ∃ e, build u.old = .ok e := by
  obtain ⟨d, hd, _⟩ := bind_eq_ok.mp h
  have hproper := Site.source_proper _ _ ((lexer_listing _).mp ⟨d, hd⟩) (old_fits hclear.1)
  obtain ⟨c, hc⟩ := (lexer_listing _).mpr hproper
  obtain ⟨k⟩ := exists_sides hc hd
  obtain ⟨s', t', hs', ht', hf⟩ := (build_split hd k.lines').mp h
  have hfree : ∀ x ∈ k.front' ++ k.rest', u.first.1.text ∉ uses (shapes x) :=
    k.free' _ List.mem_cons_self
  obtain ⟨s, hs, hagrees⟩ := (k.agrees _).symm.run (twins_symm k.twins.1)
    (fun x hx => hfree x (List.mem_append_left _ hx)) hs'
  obtain ⟨t, ht, hagrees'⟩ :=
    (k.step_clear (k.meets hc hs hs' hagrees.symm) hclear).2 t' ht'
  obtain ⟨e, he, _⟩ := hagrees'.symm.run (twins_symm k.twins.2)
    (fun x hx => hfree x (List.mem_append_right _ hx)) hf
  exact ⟨e, (build_split hc k.lines).mpr ⟨s, t, hs, ht, he⟩⟩

/-- If both sources are accepted and emit the same, the labels are clear. -/
theorem clear_of_builds (h : build u.old = .ok e) (h' : build u.new = .ok f) (hmc : f.mc = e.mc) :
    u.Clear := by
  obtain ⟨c, hc, _⟩ := bind_eq_ok.mp h
  obtain ⟨d, hd, _⟩ := bind_eq_ok.mp h'
  have hfits : (u.line u.front (u.first :: u.more)).Fits := by
    refine ((lexer_listing _).mp ⟨d, hd⟩).fits _ ?_
    rw [Site.source_lines]
    simp
  obtain ⟨k⟩ := exists_sides hc hd
  obtain ⟨s, t, hs, ht, he⟩ := (build_split hc k.lines).mp h
  obtain ⟨s', t', hs', ht', hf⟩ := (build_split hd k.lines').mp h'
  obtain ⟨s₁, hs₁, hagrees⟩ := (k.agrees _).run k.twins.1 k.front_free hs
  cases hs₁.symm.trans hs'
  -- as many commands follow, so those in front of them are the same
  have hsame : t'.mc = t.mc := by
    have hrest : ∀ x ∈ k.rest, WellLexed x := fun x hx => k.well x (by simp [hx])
    have hrest' : ∀ x ∈ k.rest', WellLexed x := fun x hx => k.well' x (by simp [hx])
    have hcount := run_count k.twins.2 he hf
    obtain ⟨ms, hms⟩ := (run_extends hrest he).mc
    obtain ⟨ms', hms'⟩ := (run_extends hrest' hf).mc
    rw [hmc] at hcount hms'
    exact (List.append_inj (hms'.trans hms.symm) (by omega)).1
  exact k.clear_of_steps (k.meets hc hs hs' hagrees) hfits ht ht' hsame

end Source

end Labelling

/-- Labels in front of a line are transparent exactly if, where one of the two sources is
accepted, they are clear. -/
theorem labels_transparent_iff (u : Labelling) :
    u.Transparent ↔ ((∃ c, build u.old = .ok c) ∨ (∃ d, build u.new = .ok d) → u.Clear) := by
  constructor
  · rintro ⟨hiff, hmc⟩ haccepted
    have hboth : (∃ c, build u.old = .ok c) ∧ ∃ d, build u.new = .ok d :=
      haccepted.elim (fun h => ⟨h, hiff.mp h⟩) fun h => ⟨hiff.mpr h, h⟩
    obtain ⟨⟨c, hc⟩, d, hd⟩ := hboth
    exact Labelling.clear_of_builds hc hd (hmc c d hc hd)
  · intro hclear
    refine ⟨⟨?_, ?_⟩, ?_⟩
    · rintro ⟨c, hc⟩
      obtain ⟨d, hd, _⟩ := (hclear (.inl ⟨c, hc⟩)).accepts hc
      exact ⟨d, hd⟩
    · rintro ⟨d, hd⟩
      exact (hclear (.inr ⟨d, hd⟩)).accepted hd
    · intro c d hc hd
      obtain ⟨d', hd', hmc⟩ := (hclear (.inl ⟨c, hc⟩)).accepts hc
      cases hd.symm.trans hd'
      exact hmc

/-- `nop` with the labels `a` and `b`. -/
def twoLabels : Labelling where
  before := []
  after := some ⟨[], ⟨.blank .none, .none, none⟩⟩
  name := nameNop
  operands := .done .none
  opens := trivial
  gap := .none
  remark := none
  indent := .none
  front := .none
  first := (nameA, .one)
  more := [(nameB, .one)]
  fresh := by decide
  distinct := by decide
  short := by decide

/-- The second label is taken for the command name, and the source is rejected. -/
theorem labels_opaque : twoLabels.old = "nop\n".toList ∧ twoLabels.new = "a: b: nop\n".toList ∧
    ¬ twoLabels.Transparent := by
  refine ⟨by decide, by decide, ?_⟩
  rintro ⟨hiff, _⟩
  obtain ⟨d, hd⟩ := hiff.mp ⟨_, ok_final (by decide +kernel)⟩
  have hnone : (build twoLabels.new).toOption = none := by decide +kernel
  rw [hd] at hnone
  cases hnone

end Asm
