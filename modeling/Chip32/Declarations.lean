import Chip32.Alike
import Chip32.Literals
import Chip32.Translation

/-!
# Addresses and lists in declarations

A declaration with a number for its address gets the address 0: `strtoul` is called on
the name. One with `?` for its size takes no list of values: behind the last value the
loop asks for another token.
-/
namespace Asm

open Runs Vm Grammar

/-- An accepted `declare NAME, N` with whatever follows. -/
structure ExplicitDeclare (code : Text) extends AcceptedLine code where
  name : List Char
  digits : List Char
  rest : List (Tktype × List Char)
  shapes_ok : shapes cmd =
    (.name, "declare".toList) :: (.name, name) :: (.literalNum, digits) :: rest
  address : Nat
  address_ok : integerOf digits = some (address : Int)
  fits : address < 2 ^ 31
  behind : Asmchip32
  run_line : parseStep state cmd = .ok behind

/-- An operand of a later line that is the declared name, with `$`, `*`, `&` or nothing
in front of it. -/
structure NameUse {code : Text} (u : ExplicitDeclare code) extends AcceptedLine code where
  later : u.before.length < before.length
  action : Action
  action_ok : actionOf cmd = some action
  pos : Nat
  second : Bool
  operand : (pos, second) ∈ operands action cmd
  token : Lextoken
  token_ok : cmd[pos]? = some token ∧ token.type = .name ∧ token.text = u.name
  plain : cmd[pos - 1]?.map Lextoken.type ≠ some .data
  command : Command
  command_ok : built.mc[state.mc.length]? = some command

section Addresses

variable {code : Text} (u : ExplicitDeclare code)

/-- The argument, without what a relative jump adds to it. -/
def NameUse.argument {u : ExplicitDeclare code} (v : NameUse u) : Word :=
  argOf v.command v.second - base v.action v.state v.second

/-- What a token of an initialiser asks for: the cells of a string, or that of one value. -/
def initialCells (tk : Lextoken) : List (Option Word) :=
  if tk.type = .literalStr then (closed tk.text.tail.dropLast).map some else [initValue tk]

/-- What the tokens behind the size ask for. -/
def initialiser (cmd : Lexcmd) : List (Option Word) := (cmd.drop 4).flatMap initialCells

/-- The name stands for the number in every operand, what the line emits stores to the
cells from that number on, and all of the initialiser is stored. -/
structure ExplicitDeclare.Honoured : Prop where
  uses : ∀ v : NameUse u, v.argument = BitVec.ofNat 32 u.address
  values : ∀ j m, u.state.mc.length + j < u.behind.mc.length →
    u.built.mc[u.state.mc.length + j]? = some m →
    m.cmd = Opcode.move.code ∧ arg0fGet m.flags = .ram ∧ m.arg0 = BitVec.ofNat 32 (u.address + j)
  stored : ∀ j v, (initialiser u.cmd)[j]? = some v → u.state.mc.length + j < u.behind.mc.length ∧
    ∃ m, u.built.mc[u.state.mc.length + j]? = some m ∧ v = some m.arg1

/-- There is no initialiser, or it is one string without an inner quote. -/
def StoredWhole (cmd : Lexcmd) : Prop :=
  ∀ tk rest, cmd.drop 4 = tk :: rest →
    rest = [] ∧ tk.type = .literalStr ∧ '"' ∉ tk.text.tail.dropLast

theorem length_initialCells (tks : List Lextoken) :
    tks.length ≤ (tks.flatMap initialCells).length := by
  induction tks with
  | nil => exact Nat.zero_le _
  | cons tk tks ih =>
    have hone : 1 ≤ (initialCells tk).length := by
      unfold initialCells
      split <;> simp [closed]
    rw [List.flatMap_cons, List.length_append, List.length_cons]
    omega

theorem drop_four {cmd : Lexcmd} {init : Lextoken} (h : cmd[4]? = some init) :
    cmd.drop 4 = init :: cmd.drop 5 := by
  obtain ⟨hlt, rfl⟩ := List.getElem?_eq_some_iff.mp h
  exact List.drop_eq_getElem_cons hlt

theorem prefix_upToQuote (body : List Char) : upToQuote body <+: body := List.takeWhile_prefix _

/-- `strchr` leaves a string whole that has no quote inside. -/
theorem upToQuote_eq_iff {body : List Char} : upToQuote body = body ↔ '"' ∉ body := by
  rw [upToQuote, List.takeWhile_eq_self_iff]
  constructor
  · intro hall hmem
    exact absurd (hall _ hmem) (by decide)
  · intro hno ch hch
    have hne : ch ≠ '"' := fun he => hno (he ▸ hch)
    simpa using hne

/-- A string is stored whole where it is the only token and has no quote inside; a list
never is, since its last value is not reached. -/
theorem Storage.whole_iff {cmd : Lexcmd} {n : BitVec 64} {vs : List Word} (h : Storage cmd n vs)
    (hlexed : ∀ tk ∈ cmd, Lexed tk) : initialiser cmd <+: vs.map some ↔ StoredWhole cmd := by
  cases h with
  | cell h₃ =>
    have hnone : cmd.drop 4 = [] := by
      rw [List.getElem?_eq_none_iff] at h₃
      exact List.drop_eq_nil_of_le (by omega)
    rw [initialiser, StoredWhole, hnone]
    exact iff_of_true List.nil_prefix nofun
  | @string size init _ _ h₄ hinit _ =>
    have hdrop := drop_four h₄
    have hbody := ((hlexed init (List.mem_of_getElem? h₄)).string_text hinit).1
    have hcells : initialCells init = (closed init.text.tail.dropLast).map some := if_pos hinit
    rw [initialiser, StoredWhole, hdrop, List.flatMap_cons, hbody, hcells]
    constructor
    · intro hpre tk rest he
      cases he
      have hlen := hpre.length_le
      have hrest := length_initialCells (cmd.drop 5)
      have hcut := (prefix_upToQuote init.text.tail.dropLast).length_le
      simp only [closed, List.length_append, List.length_map, List.length_singleton] at hlen
      refine ⟨List.length_eq_zero_iff.mp (by omega), hinit, upToQuote_eq_iff.mp ?_⟩
      exact (prefix_upToQuote _).eq_of_length (by omega)
    · intro hwhole
      obtain ⟨hrest, _, hquote⟩ := hwhole init _ rfl
      rw [hrest, upToQuote_eq_iff.mpr hquote, List.flatMap_nil, List.append_nil]
      exact List.prefix_rfl
  | @list size init _ _ h₄ hinit _ _ hlen hlt _ =>
    have hdrop := drop_four h₄
    obtain ⟨hfour, _⟩ := List.getElem?_eq_some_iff.mp h₄
    refine iff_of_false (fun hpre => ?_) fun hwhole => ?_
    · have hle := hpre.length_le
      have hall := length_initialCells (cmd.drop 4)
      rw [List.length_map] at hle
      rw [List.length_drop] at hall
      have hshort : 4 + vs.length < cmd.length := by
        by_cases hnil : vs = []
        · rw [hnil]
          exact hfour
        · exact hlt hnil
      unfold initialiser at hle
      omega
    · have hstr := (hwhole init _ hdrop).2.1
      rcases hinit with hinit | hinit <;> rw [hinit] at hstr <;> cases hstr

theorem Storage.nil_iff {cmd : Lexcmd} {n : BitVec 64} {vs : List Word} (h : Storage cmd n vs)
    (hwhole : StoredWhole cmd) : vs = [] ↔ cmd.length ≤ 4 := by
  cases h with
  | cell h₃ =>
    rw [List.getElem?_eq_none_iff] at h₃
    exact iff_of_true rfl (by omega)
  | string _ _ h₄ =>
    obtain ⟨hfour, _⟩ := List.getElem?_eq_some_iff.mp h₄
    exact iff_of_false (by simp) (by omega)
  | list _ _ h₄ hinit =>
    have hstr := (hwhole _ _ (drop_four h₄)).2.1
    rcases hinit with hinit | hinit <;> rw [hinit] at hstr <;> cases hstr

/-- The name is declared with the address 0, and the values go to the cells from 0 on. -/
theorem ExplicitDeclare.effect :
    (∃ dec, declareFind u.behind.declare u.name = some dec ∧ dec.addr = 0) ∧
      ∃ n vs, Storage u.cmd n vs ∧ u.behind.mc = u.state.mc ++ moves 0 0 vs := by
  have hwell := u.wellLexed u.cmd (by simp)
  have hfind : findAction "declare".toList = some .declare := by decide
  obtain ⟨tk, pl, addr, dauto, n, vs, htk, htype, hpl, hplace, hst, hfresh, hd⟩ :=
    takes_of_name hwell u.shapes_ok hfind u.run_line
  obtain ⟨tk', htk', _, htext⟩ := @shapes_at u.cmd 1 _ (by rw [u.shapes_ok]; rfl)
  obtain ⟨pl', hpl', hnum, _⟩ := @shapes_at u.cmd 2 _ (by rw [u.shapes_ok]; rfl)
  cases htk.symm.trans htk'
  cases hpl.symm.trans hpl'
  have htext : tk.text = u.name := htext
  -- `strtoul` finds no digit where a name starts
  have hzero : number tk.start = 0 := by
    have hlexed := lexer_lexed u.lexer_ok u.cmd (by simp [u.lines]) tk (List.mem_of_getElem? htk)
    obtain ⟨q, hq⟩ := start_eq tk
    rw [number, hq, strtoul_spells hlexed.spells (by simp [htype])]
    rfl
  simp only [place, hnum, hzero, Option.some.injEq, Prod.mk.injEq] at hplace
  obtain ⟨rfl, rfl⟩ := hplace
  refine ⟨⟨⟨.literalNum, 0, tk.text⟩, ?_, rfl⟩, n, vs, hst, by rw [hd]; rfl⟩
  have hnone : u.state.declare.find? (fun x => x.name = u.name) = none := by
    rw [← htext]
    exact hfresh.1
  simp [hd, declareFind, hnone, htext]

/-- Every operand that is the name is assembled to 0. -/
theorem NameUse.argument_eq {u : ExplicitDeclare code} (v : NameUse u) : v.argument = 0 := by
  obtain ⟨⟨dec, hdec, haddr⟩, _⟩ := u.effect
  obtain ⟨between, hbefore, hrun⟩ := ReachedLine.between v.later u.run_line
  have hextends : Extends u.behind v.state := by
    refine run_extends (fun x hx => v.wellLexed x ?_) hrun
    simp [hbefore, hx]
  obtain ⟨a, d, ha, htakes, _, hafter⟩ := v.takes
  cases ha.symm.trans v.action_ok
  obtain ⟨htk, htype, htext⟩ := v.token_ok
  obtain ⟨m, w, hd, hw, harg⟩ := operand_assembled htakes v.operand htk
  have hcommand : v.command = m :=
    Option.some.inj (v.command_ok.symm.trans (v.emitted (k := 0) hafter hd rfl))
  have hfound : declareFind (addLabel v.state v.cmd).declare u.name = some dec :=
    find_extends (hextends.trans (extends_addLabel _ _)) hdec
  simp only [valueOf, htype, htext, hfound, Option.map_some, Option.some.injEq] at hw
  rw [NameUse.argument, hcommand, harg, ← hw, haddr]
  simp

/-- The `j`-th command of the line stores the `j`-th value. -/
theorem ExplicitDeclare.getElem?_built {vs : List Word}
    (hmc : u.behind.mc = u.state.mc ++ moves 0 0 vs) {j : Nat}
    (hj : u.state.mc.length + j < u.behind.mc.length) :
    u.built.mc[u.state.mc.length + j]? = (moves 0 0 vs)[j]? := by
  obtain ⟨_, d, _, _, hstep, hafter⟩ := u.takes
  cases hstep.symm.trans u.run_line
  rw [hmc, List.length_append, Nat.add_lt_add_iff_left] at hj
  rw [List.getElem?_eq_getElem hj]
  exact u.emitted hafter hmc (List.getElem?_eq_getElem hj)

theorem address_eq_zero : BitVec.ofNat 32 u.address = 0 ↔ u.address = 0 := by
  have hfits := u.fits
  constructor
  · intro h
    have hnat := congrArg BitVec.toNat h
    rw [BitVec.toNat_ofNat, Nat.mod_eq_of_lt (hfits.trans (by decide))] at hnat
    exact hnat
  · rintro h
    rw [h]
    rfl

/-- All of the initialiser is stored exactly if it is a part of what the line stores. -/
theorem ExplicitDeclare.stored_iff {vs : List Word}
    (hmc : u.behind.mc = u.state.mc ++ moves 0 0 vs) :
    (∀ j v, (initialiser u.cmd)[j]? = some v → u.state.mc.length + j < u.behind.mc.length ∧
      ∃ m, u.built.mc[u.state.mc.length + j]? = some m ∧ v = some m.arg1) ↔
      initialiser u.cmd <+: vs.map some := by
  have hlength : u.behind.mc.length = u.state.mc.length + vs.length := by
    rw [hmc, List.length_append, length_moves]
  rw [List.prefix_iff_getElem?]
  constructor
  · intro hall j hj
    obtain ⟨hlt, m, hm, hv⟩ := hall j _ (List.getElem?_eq_getElem hj)
    rw [u.getElem?_built hmc hlt, getElem?_moves, Option.map_eq_some_iff] at hm
    obtain ⟨w, hw, rfl⟩ := hm
    rw [List.getElem?_map, hw, hv]
    rfl
  · intro hall j v hv
    obtain ⟨hj, rfl⟩ := List.getElem?_eq_some_iff.mp hv
    have hw := hall j hj
    rw [List.getElem?_map, Option.map_eq_some_iff] at hw
    obtain ⟨w, hw, hv⟩ := hw
    obtain ⟨hlt, _⟩ := List.getElem?_eq_some_iff.mp hw
    have hj' : u.state.mc.length + j < u.behind.mc.length := by omega
    refine ⟨hj', ⟨modeBits .ram, Opcode.move.code, 0 + .ofNat 32 (0 + j), w⟩, ?_, hv.symm⟩
    rw [u.getElem?_built hmc hj', getElem?_moves, hw]
    rfl

/-- An explicit address is honoured exactly if it is 0 or nothing is made of it, and the
initialiser, if there is one, is one string without an inner quote. -/
theorem explicit_honoured_iff : u.Honoured ↔
    StoredWhole u.cmd ∧ (u.address = 0 ∨ u.cmd.length ≤ 4 ∧ IsEmpty (NameUse u)) := by
  obtain ⟨_, n, vs, hst, hmc⟩ := u.effect
  have hlength : u.behind.mc.length = u.state.mc.length + vs.length := by
    rw [hmc, List.length_append, length_moves]
  have hlexed : ∀ tk ∈ u.cmd, Lexed tk := lexer_lexed u.lexer_ok u.cmd (by simp [u.lines])
  have hwhole := (u.stored_iff hmc).trans (hst.whole_iff hlexed)
  constructor
  · intro h
    have hall := hwhole.mp h.stored
    refine ⟨hall, ?_⟩
    by_cases hzero : u.address = 0
    · exact .inl hzero
    refine .inr ⟨(hst.nil_iff hall).mp ?_, ⟨fun v => hzero ?_⟩⟩
    · by_contra hne
      have hpos := List.length_pos_iff.mpr hne
      have hfirst := u.getElem?_built hmc (j := 0) (by omega)
      rw [getElem?_moves, List.getElem?_eq_getElem hpos, Option.map_some] at hfirst
      obtain ⟨_, _, harg⟩ := h.values 0 _ (by omega) hfirst
      exact hzero ((address_eq_zero u).mp harg.symm)
    · exact (address_eq_zero u).mp ((h.uses v).symm.trans v.argument_eq)
  · rintro ⟨hall, hzero | ⟨hshort, hunused⟩⟩
    · refine ⟨fun v => ?_, fun j m hj hm => ?_, hwhole.mpr hall⟩
      · rw [v.argument_eq, hzero]
        rfl
      · rw [u.getElem?_built hmc hj, getElem?_moves, Option.map_eq_some_iff] at hm
        obtain ⟨w, _, rfl⟩ := hm
        have hmode : arg0fGet (modeBits .ram) = .ram := by decide
        refine ⟨rfl, hmode, ?_⟩
        rw [hzero]
        exact BitVec.zero_add _
    · refine ⟨fun v => hunused.elim v, fun j m hj _ => ?_, hwhole.mpr hall⟩
      rw [hlength, (hst.nil_iff hall).mpr hshort, List.length_nil] at hj
      omega

end Addresses

/-- A variable at the address 5 and a use of it. -/
def fiveSource : Text := "initr 64\ndeclare x, 5\nmove $x, 1\n".toList

def fiveLexed : Asmchip32 := final (lexer (.new fiveSource))

def fiveLine (i : Nat) : Lexcmd := fiveLexed.vcmd.getD i []

def fiveDeclare : ExplicitDeclare fiveSource where
  lexed := fiveLexed
  lexer_ok := ok_final (by decide +kernel)
  built := final (build fiveSource)
  build_ok := ok_final (by decide +kernel)
  before := [fiveLine 0]
  cmd := fiveLine 1
  after := [fiveLine 2]
  lines := by decide +kernel
  state := final (run parseStep [fiveLine 0] fiveLexed)
  run_before := ok_final (by decide +kernel)
  name := ['x']
  digits := ['5']
  rest := []
  shapes_ok := by decide +kernel
  address := 5
  address_ok := by decide
  fits := by decide
  behind := final (run parseStep [fiveLine 0, fiveLine 1] fiveLexed)
  run_line := ok_of_toOption (by decide +kernel)

def fiveUse : NameUse fiveDeclare where
  lexed := fiveLexed
  lexer_ok := ok_final (by decide +kernel)
  built := final (build fiveSource)
  build_ok := ok_final (by decide +kernel)
  before := [fiveLine 0, fiveLine 1]
  cmd := fiveLine 2
  after := []
  lines := by decide +kernel
  state := final (run parseStep [fiveLine 0, fiveLine 1] fiveLexed)
  run_before := ok_final (by decide +kernel)
  later := by decide
  action := .twoarg .move
  action_ok := by decide +kernel
  pos := 2
  second := false
  operand := by decide +kernel
  token := ((fiveLine 2)[2]?).getD ⟨0, .name, [], []⟩
  token_ok := by decide +kernel
  plain := by decide +kernel
  command := ⟨1, Opcode.move.code, 0, 1⟩
  command_ok := by decide +kernel

/-- `move $x, 1` stores to the cell 0. -/
theorem five_misplaced : ¬ fiveDeclare.Honoured := fun h =>
  absurd (h.uses fiveUse) (by decide +kernel)

/-- The tokens of literals of one kind, decimals or single characters, and their values. -/
inductive Literals : List (Tktype × List Char) → List Word → Prop
  | numbers {ns : List (List Char × Int)} (h : ∀ x ∈ ns, integerOf x.1 = some x.2) :
      Literals (ns.map fun x => (.literalNum, x.1)) (ns.map fun x => BitVec.ofInt 32 x.2)
  | chars (cs : List Char) :
      Literals (cs.map fun ch => (.literalChar, ['\'', ch, '\''])) (cs.map charWord)

/-- A line `declare NAME, ?, ?, v1,...,vn` with a fresh name, behind accepted lines. -/
structure ListLine (code : Text) extends ReachedLine code where
  name : List Char
  fresh : Fresh state.declare name
  literals : List (Tktype × List Char)
  values : List Word
  literals_ok : Literals literals values
  nonempty : literals ≠ []
  shapes_ok : shapes cmd = (.name, "declare".toList) :: (.name, name) :: (.auto, ['?']) ::
    (.auto, ['?']) :: literals

variable {code : Text} (u : ListLine code)

/-- The line is accepted, stores its values from the address of the name on, and the
next automatic address is the one behind them. -/
def ListLine.Stored : Prop :=
  ∃ d dec, parseStep u.state u.cmd = .ok d ∧ declareFind d.declare u.name = some dec ∧
    d.mc = u.state.mc ++ moves dec.addr 0 u.values ∧
    d.avaddr.setWidth 32 = dec.addr + BitVec.ofNat 32 u.values.length

theorem Literals.type_ne {l : List (Tktype × List Char)} {vs : List Word} (h : Literals l vs) :
    ∀ x ∈ l, x.1 ≠ .literalStr := by
  intro x hx
  cases h with
  | numbers =>
    obtain ⟨_, _, rfl⟩ := List.mem_map.mp hx
    nofun
  | chars =>
    obtain ⟨_, _, rfl⟩ := List.mem_map.mp hx
    nofun

/-- No list is accepted: the size `?` stands for all the tokens there are, and the loop
wants one more. -/
theorem list_refused : ¬ u.Stored := by
  rintro ⟨d, _, hstep, _⟩
  obtain ⟨n, vs, hst, _⟩ := declare_auto (u.wellLexed u.cmd (by simp)) hstep u.shapes_ok
  obtain ⟨size, h₃, hsize, _⟩ := @shapes_at u.cmd 3 _ (by rw [u.shapes_ok]; rfl)
  obtain ⟨literal, rest, hcons⟩ := List.exists_cons_of_ne_nil u.nonempty
  obtain ⟨init, h₄, hinit, _⟩ := @shapes_at u.cmd 4 _ (by rw [u.shapes_ok, hcons]; rfl)
  have hsize : size.type = .auto := hsize
  cases hst with
  | cell h => cases h₃.symm.trans h
  | string _ _ h₄' hstr =>
    cases h₄.symm.trans h₄'
    exact u.literals_ok.type_ne literal (by simp [hcons]) (hinit.symm.trans hstr)
  | list h₃' hnum =>
    cases h₃.symm.trans h₃'
    rw [hsize] at hnum
    cases hnum

/-- Two numbers. -/
def pairSource : Text := "initr 64\ndeclare a, ?, ?, 1, 2\n".toList

def pairLexed : Asmchip32 := final (lexer (.new pairSource))

def pairLine (i : Nat) : Lexcmd := pairLexed.vcmd.getD i []

def pairList : ListLine pairSource where
  lexed := pairLexed
  lexer_ok := ok_final (by decide +kernel)
  before := [pairLine 0]
  cmd := pairLine 1
  after := []
  lines := by decide +kernel
  state := final (run parseStep [pairLine 0] pairLexed)
  run_before := ok_final (by decide +kernel)
  name := ['a']
  fresh := by decide +kernel
  literals := [(.literalNum, ['1']), (.literalNum, ['2'])]
  values := [1, 2]
  literals_ok := @Literals.numbers [(['1'], 1), (['2'], 2)] (by simp; decide)
  nonempty := nofun
  shapes_ok := by decide +kernel

/-- The line is rejected for a missing argument. -/
theorem pair_refused : (parseStep pairList.state pairList.cmd).toOption = none ∧
    ¬ pairList.Stored := by
  have hnone : (parseStep pairList.state pairList.cmd).toOption = none := by decide +kernel
  refine ⟨hnone, ?_⟩
  rintro ⟨d, _, hstep, _⟩
  rw [hstep] at hnone
  cases hnone

end Asm
