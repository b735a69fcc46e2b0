import Chip32.Translation
import Chip32.VmEffects

/-!
# Strings from source to output

A string is stored character by character, closed by a `0`, and printed by `logs`. The
lexer knows escaped quotes, `declare` looks for the first quote whatever stands before it.
-/
namespace Asm

open Runs Vm

/-- `declare x, ?, ?, "body"`. -/
def declareTokens (x body : List Char) : List (Tktype × List Char) :=
  [(.name, "declare".toList), (.name, x), (.auto, ['?']), (.auto, ['?']),
    (.literalStr, '"' :: (body ++ ['"']))]

/-- `initr N`, the declaration and `logs $x`. -/
def stringTokens (n : Source.Numeral) (x body : List Char) : List (List (Tktype × List Char)) :=
  [[(.name, "initr".toList), (.literalNum, n.text)], declareTokens x body,
    [(.name, "logs".toList), (.ram, ['$']), (.name, x)]]

/-- What `strchr` finds of a body. -/
def upToQuote (body : List Char) : List Char := body.takeWhile (· ≠ '"')

/-- The cells of a string. -/
def closed (chars : List Char) : List Word := chars.map charWord ++ [0]

/-- `logs` of the cell `r`. -/
def logsOf (r : Word) : Command := ⟨modeBits .ram, Opcode.logs.code, r, 0⟩

/-- The commands of the source, for the characters it stores. -/
def stringObject (n : Source.Numeral) (chars : List Char) : List Command :=
  ⟨0, Opcode.initr.code, n.word, 0⟩ :: (moves regLast 0 (closed chars) ++ [logsOf regLast])

theorem nul_notMem_body (b : Grammar.Body '"') : nul ∉ b.text := by
  induction b with
  | nil => exact List.not_mem_nil
  | cons p b ih =>
    rw [Grammar.Body.text_cons, List.mem_append]
    rintro (h | h)
    · cases p with
      | plain c hc => exact hc.2.2 (List.mem_singleton.mp h).symm
      | escape c hc =>
        simp only [Grammar.Piece.text, List.mem_cons, List.not_mem_nil, or_false] at h
        rcases h with h | h
        · exact absurd h (by decide)
        · exact hc h.symm
    · exact ih h

theorem takeWhile_quoted {body : List Char} (hnul : nul ∉ body) (rest : List Char) :
    (body ++ '"' :: rest).takeWhile (fun ch => ch ≠ '"' && ch ≠ nul) = upToQuote body := by
  rw [upToQuote]
  induction body with
  | nil => simp
  | cons c body ih =>
    rw [List.mem_cons, not_or] at hnul
    rw [List.cons_append, List.takeWhile_cons, List.takeWhile_cons, ih hnul.2]
    simp [Ne.symm hnul.1]

section Tokens

variable {code : Text} {lexed : Asmchip32} (hlex : lexer (.new code) = .ok lexed) {cmd : Lexcmd}
  (hcmd : cmd ∈ lexed.vcmd) {body : List Char}
include hlex hcmd

theorem nul_notMem_string (hmem : (.literalStr, '"' :: (body ++ ['"'])) ∈ shapes cmd) :
    nul ∉ body := by
  obtain ⟨w, hw⟩ := lexer_ok hlex nofun cmd hcmd
  rw [hw] at hmem
  obtain ⟨b, hb⟩ := spells_str (spells_of_mem hmem)
  rw [Grammar.Body.quoted, List.cons.injEq] at hb
  rw [List.append_cancel_right hb.2]
  exact nul_notMem_body b

/-- The token of a string is cut at its first inner quote. -/
theorem stringBody_eq {tk : Lextoken} (htk : tk ∈ cmd) (ht : tk.type = .literalStr)
    (htext : tk.text = '"' :: (body ++ ['"'])) : stringBody tk = upToQuote body := by
  have hnul : nul ∉ body := nul_notMem_string hlex hcmd (by
    rw [← htext, ← ht]
    exact List.mem_map_of_mem htk)
  obtain ⟨rest, hrest⟩ : ∃ rest, tk.start = tk.text ++ rest :=
    ⟨_, (List.take_append_drop _ _).symm⟩
  rw [stringBody, hrest, htext]
  simpa using takeWhile_quoted hnul rest

end Tokens

section Lines

variable {c d : Asmchip32} {cmd : Lexcmd} {n : Source.Numeral} {x body chars : List Char}

/-- A string with an automatic address. -/
theorem declare_string (hcmd : WellLexed cmd) (hstep : parseStep c cmd = .ok d)
    (hshape : shapes cmd = declareTokens x body)
    (hbody : ∀ tk ∈ cmd, tk.type = .literalStr → tk.text = '"' :: (body ++ ['"']) →
      stringBody tk = chars) :
    d.mc = c.mc ++ moves (c.avaddr.setWidth 32) 0 (closed chars) ∧
      d.declare = c.declare ++ [⟨.literalNum, c.avaddr.setWidth 32, x⟩] := by
  obtain ⟨n, vs, hst, rfl⟩ := declare_auto hcmd hstep hshape
  obtain ⟨init', hinit', htype, hstr⟩ := @shapes_at cmd 4 _ (by rw [hshape]; rfl)
  cases hst with
  | cell h₃ =>
    obtain ⟨size, hsize, _⟩ := @shapes_at cmd 3 _ (by rw [hshape]; rfl)
    rw [hsize] at h₃
    cases h₃
  | @list size init h₃ _ h₄ hinit =>
    cases h₄.symm.trans hinit'
    rw [htype] at hinit
    rcases hinit with hinit | hinit <;> cases hinit
  | @string size init h₃ _ h₄ _ _ =>
    cases h₄.symm.trans hinit'
    rw [hbody init' (List.mem_of_getElem? h₄) htype hstr]
    exact ⟨rfl, rfl⟩

/-- `logs` of a variable. -/
theorem logs_emitted (hcmd : WellLexed cmd) (hstep : parseStep c cmd = .ok d) {addr : Word}
    (hshape : shapes cmd = [(.name, "logs".toList), (.ram, ['$']), (.name, x)])
    (hfind : declareFind c.declare x = some ⟨.literalNum, addr, x⟩) :
    d = c.emit ⟨modeBits .ram, Opcode.logs.code, addr, 0⟩ := by
  have haction : findAction "logs".toList = some (.onearg .logs) := by decide
  obtain ⟨hl, hfirst, _⟩ := unlabelled hshape
  have htakes := takes_of_name hcmd hshape haction hstep
  simp only [Action.Takes] at htakes
  obtain ⟨_, mode, q, v, ⟨hpos, tk, htk, hval⟩, rfl⟩ := htakes
  rw [addLabel_of_none hl, hfirst] at *
  obtain ⟨s, hs, ht, _⟩ := @shapes_at cmd 1 _ (by rw [hshape]; rfl)
  obtain ⟨tk', htk', htype, htext⟩ := @shapes_at cmd 2 _ (by rw [hshape]; rfl)
  simp only [rvaluePos, hs, Option.map_some, ht, rvalueType, Option.some.injEq,
    Prod.mk.injEq] at hpos
  obtain ⟨rfl, rfl⟩ := hpos
  cases htk.symm.trans htk'
  have htype : tk.type = .name := htype
  have htext : tk.text = x := htext
  simp only [valueOf, htype, htext, hfind, Option.map_some, Option.some.injEq] at hval
  rw [← hval]
  rfl

end Lines

/-- What the program is assembled to. -/
theorem build_string {code : Text} {n : Source.Numeral} {x body : List Char}
    {lexed c : Asmchip32} (hlex : lexer (.new code) = .ok lexed)
    (hshapes : lexed.vcmd.map shapes = stringTokens n x body) (hb : build code = .ok c) :
    c.mc = stringObject n (upToQuote body) ∧
      declareFind c.declare x = some ⟨.literalNum, regLast, x⟩ ∧ nul ∉ body := by
  rw [build, hlex, ok_bind, parse] at hb
  have hcmds : ∀ cmd ∈ lexed.vcmd, WellLexed cmd ∧ ∀ x ∈ cmd, Ends x := fun cmd hcmd =>
    ⟨lexer_wellLexed hlex cmd hcmd, lexer_ends hlex cmd hcmd⟩
  obtain ⟨hmc, havaddr, hdecl, _⟩ := lexer_keeps hlex
  obtain ⟨l₁, rest, hv, h₁, hrest⟩ := List.map_eq_cons_iff.mp hshapes
  obtain ⟨l₂, rest, rfl, h₂, hrest⟩ := List.map_eq_cons_iff.mp hrest
  obtain ⟨l₃, rfl, h₃⟩ := List.map_eq_singleton_iff.mp hrest
  rw [hv] at hb hcmds
  obtain ⟨hwell₁, hends₁⟩ := hcmds l₁ (by simp)
  obtain ⟨hwell₂, _⟩ := hcmds l₂ (by simp)
  obtain ⟨hwell₃, _⟩ := hcmds l₃ (by simp)
  obtain ⟨d, hd, hb⟩ := bind_eq_ok.mp hb
  obtain ⟨e, he, hb⟩ := bind_eq_ok.mp hb
  obtain ⟨f, hf, hb⟩ := bind_eq_ok.mp hb
  cases hb
  cases initr_emitted hwell₁ hends₁ hd h₁
  obtain ⟨hmc₂, hdecl₂⟩ := declare_string hwell₂ he h₂ fun tk htk ht htext =>
    stringBody_eq hlex (by simp [hv]) htk ht htext
  have haddr : (lexed.emit ⟨0, Opcode.initr.code, n.word, 0⟩).avaddr.setWidth 32 = regLast := by
    rw [Asmchip32.emit, havaddr]
    rfl
  rw [haddr] at hmc₂ hdecl₂
  have hfind : declareFind e.declare x = some ⟨.literalNum, regLast, x⟩ := by
    rw [hdecl₂, Asmchip32.emit, hdecl]
    simp [declareFind, Asmchip32.new]
  rw [logs_emitted hwell₃ hf h₃ hfind]
  have hmem : l₂ ∈ lexed.vcmd := by simp [hv]
  refine ⟨?_, hfind, nul_notMem_string hlex hmem (by simp [h₂, declareTokens])⟩
  rw [Asmchip32.emit, hmc₂, Asmchip32.emit, hmc]
  rfl

section Machine

variable {prog buf : List Command} {h : Host} {c : Chip} {size : Word} {vs : List Word} {i : Nat}

theorem word_small {k : Nat} (hk : k < 2 ^ 31) :
    (BitVec.ofNat 32 k).toNat = k ∧ (BitVec.ofNat 32 k).toInt = k := by
  have hnat : (BitVec.ofNat 32 k).toNat = k := by
    rw [BitVec.toNat_ofNat, Nat.mod_eq_of_lt (by omega)]
  exact ⟨hnat, by rw [BitVec.toInt_eq_toNat_of_lt (by omega), hnat]⟩

/-- The first `i` words are stored and the next command is the one behind their moves. -/
structure Filled (size : Word) (vs : List Word) (i : Nat) (c : Chip) : Prop where
  running : c.state = .running
  length : c.ram.length = size.toNat
  pc : cell c.ram regPc = BitVec.ofNat 32 (i + 1)
  cells : ∀ j < i, c.ram[35 + j]? = vs[j]?
  stderr : c.stderr = ""

/-- There are cells for all words; cell numbers are signed. -/
def Fits (size : Word) (vs : List Word) : Prop := (35 + vs.length : Int) ≤ size.toInt

theorem Fits.lt (hfit : Fits size vs) : 35 + vs.length ≤ size.toNat ∧ 35 + vs.length < 2 ^ 31 := by
  have hlt := BitVec.toInt_lt (x := size)
  unfold Fits at hfit
  have hnat := toNat_of_nonneg (r := size) (by omega)
  omega

section Moves

variable (hfit : Fits size vs) (hf : Filled size vs i c)
include hfit hf

theorem Filled.inRam (hne : vs ≠ []) : InRam c.ram regPc := by
  have hpos := List.length_pos_iff.mpr hne
  exact inRam_reg (by have := hfit.lt; rw [hf.length]; omega) (by decide)

theorem Filled.within (hi : i ≤ vs.length) (hp : i + 1 < buf.length) :
    Within c buf.length ∧ pcIndex c = i + 1 := by
  have hlt := hfit.lt
  obtain ⟨hnat, hint⟩ := word_small (k := i + 1) (by omega)
  have hw : Within c buf.length := by
    rw [Within, hf.pc, hint]
    omega
  exact ⟨hw, by rw [hw.index.1, hf.pc, hnat]⟩

/-- A move stores the next word. -/
theorem Filled.move (hi : i < vs.length) :
    ∃ d, execute h c ⟨modeBits .ram, Opcode.move.code, regLast + BitVec.ofNat 32 i, vs[i]⟩ =
        .ok (d, ⟨modeBits .ram, Opcode.move.code, regLast + BitVec.ofNat 32 i, vs[i]⟩) ∧
      Filled size vs (i + 1) d := by
  have hlt := hfit.lt
  have hcell : (regLast + BitVec.ofNat 32 i).toNat = 35 + i := by
    rw [BitVec.toNat_add, (word_small (k := i) (by omega)).1]
    exact Nat.mod_eq_of_lt (by have : regLast.toNat = 35 := rfl; omega)
  have hin : InRam c.ram (regLast + BitVec.ofNat 32 i) :=
    inRam_of_lt (by rw [hcell, hf.length]; omega) (by rw [hcell]; omega)
  have hpc := hf.inRam hfit (List.ne_nil_of_length_pos (by omega))
  have hne : regLast + BitVec.ofNat 32 i ≠ regPc := by
    intro he
    rw [he] at hcell
    exact absurd hcell (by have : regPc.toNat = 32 := rfl; omega)
  have hcmd : commands (.ofCode Opcode.move.code) h c
      ⟨modeBits .ram, Opcode.move.code, regLast + BitVec.ofNat 32 i, vs[i]⟩ =
        .ok ({ c with ram := c.ram.set (35 + i) vs[i] },
          ⟨modeBits .ram, Opcode.move.code, regLast + BitVec.ofNat 32 i, vs[i]⟩) := by
    have hstore := store_ok (v := vs[i]) hin
    rw [hcell] at hstore
    have hdest : arg0fGet (modeBits .ram) = .ram := by decide
    have hsrc : arg1fGet (modeBits .ram) = .literal := by decide
    simp only [Opcode.ofCode_code, commands, cmdMove, hsrc, hdest, getword, setword, hstore, pure_ok,
      ok_bind]
  refine ⟨_, execute_ok hcmd (by simpa using hpc), ?_, ?_, ?_, ?_, ?_⟩
  · exact hf.running
  · simpa using hf.length
  · rw [← hcell, cell_set_self (by simpa using hpc), cell_set_ne hne, hf.pc]
    exact (BitVec.ofNat_add (i + 1) 1).symm
  · intro j hj
    have hreg : regPc.toNat = 32 := rfl
    rw [hreg, List.getElem?_set_ne (by omega)]
    by_cases hij : i = j
    · subst hij
      rw [List.getElem?_set_self (by rw [hf.length]; omega), List.getElem?_eq_getElem hi]
    · rw [List.getElem?_set_ne (by omega)]
      exact hf.cells j (by omega)
  · exact hf.stderr

end Moves

/-- An iteration that stores a word. -/
theorem filled_turn (hbuf : 1 ≤ buf.length ∧ buf.length < 2 ^ 32) (hfit : Fits size vs)
    (hf : Filled size vs i c) (hi : i < vs.length) (hp : i + 1 < buf.length)
    (hget : prog[i + 1]? =
      some ⟨modeBits .ram, Opcode.move.code, regLast + BitVec.ofNat 32 i, vs[i]⟩) :
    ∃ d, turn h (onPage prog buf c) = .ok (.next (onPage prog buf d)) ∧
      Filled size vs (i + 1) d := by
  obtain ⟨hw, hidx⟩ := hf.within hfit (Nat.le_of_lt hi) hp
  have hin := hf.inRam hfit (List.ne_nil_of_length_pos (by omega))
  have hend := (List.getElem?_eq_some_iff.mp hget).1
  obtain ⟨d, hd, hfilled⟩ := hf.move hfit (h := h) hi
  have hcur : current (onPage prog buf c).chip = _ := current_onPage hw (by rw [hidx]; exact hend)
  rw [hidx, hget] at hcur
  have hk : ¬ Rewrites (.ofCode Opcode.move.code) := by
    rw [Opcode.ofCode_code]
    decide
  refine ⟨d, ?_, hfilled⟩
  simp only [turn, turnPage_onPage hbuf prog hf.running hin hw, hidx, if_neg (Nat.not_le.mpr hend),
    ok_bind, dispatch_onPage (h := h) hk hin hcur, hd, map_ok, pure_ok]

end Machine

section Printing

variable {ch : Char} {chars : List Char} {h : Host} {c : Chip} {pcmd : Command} {a k : Nat}

/-- The low byte of a `char` is the `char`. -/
theorem charWord_byte (hch : ch.toNat < 256) : (charWord ch).toNat % 256 = ch.toNat := by
  rw [charWord, BitVec.toNat_signExtend, BitVec.toNat_setWidth_of_le (by decide),
    BitVec.toNat_ofNat, Nat.mod_eq_of_lt hch]
  split <;> omega

theorem charText_charWord (hch : ch.toNat < 256) : charText (charWord ch) = ch.toString := by
  rw [charText, charWord_byte hch, Char.ofNat_toNat]

theorem charWord_ne_zero (hch : ch.toNat < 256) (hn : ch ≠ nul) : charWord ch ≠ 0 := by
  intro hz
  have hbyte := charWord_byte hch
  rw [hz] at hbyte
  exact hn (Char.ext (UInt32.toNat_inj.mp hbyte.symm))

/-- A turn of the loop of `logs`. -/
theorem logsLoop_succ {v : Word} (hflags : arg0fGet pcmd.flags = .ram)
    (harg : pcmd.arg0 = BitVec.ofNat 32 a) (ha : a + 1 < 2 ^ 31) (hv : c.ram[a]? = some v) :
    logsLoop h (k + 1) c pcmd =
      if v = 0 then .ok (c, { pcmd with arg0 := BitVec.ofNat 32 (a + 1) })
      else logsLoop h k { c with stderr := c.stderr ++ charText v }
        { pcmd with arg0 := BitVec.ofNat 32 (a + 1) } := by
  obtain ⟨hnat, _⟩ := word_small (k := a) (by omega)
  have hlen := (List.getElem?_eq_some_iff.mp hv).1
  have hload : load c pcmd.arg0 = .ok v := by
    have hin : InRam c.ram pcmd.arg0 :=
      inRam_of_lt (by rw [harg, hnat]; exact hlen) (by rw [harg, hnat]; omega)
    rw [load_ok hin, cell, harg, hnat, List.getD_eq_getElem?_getD, hv]
    rfl
  have hnext : pcmd.arg0 + 1 = BitVec.ofNat 32 (a + 1) := by
    rw [harg, BitVec.ofNat_add]
    rfl
  simp only [logsLoop, hflags, getword, hload, pure_ok, ok_bind, hnext]

/-- `logs` prints up to the `0`. -/
theorem logsLoop_string (hbytes : ∀ ch ∈ chars, ch.toNat < 256 ∧ ch ≠ nul)
    (hk : chars.length < k) (hflags : arg0fGet pcmd.flags = .ram)
    (harg : pcmd.arg0 = BitVec.ofNat 32 a) (ha : a + chars.length + 1 < 2 ^ 31)
    (hcells : ∀ j ≤ chars.length, c.ram[a + j]? = (closed chars)[j]?) :
    ∃ q, logsLoop h k c pcmd = .ok ({ c with stderr := c.stderr ++ String.ofList chars }, q) := by
  induction chars generalizing k c pcmd a with
  | nil =>
    obtain ⟨k, rfl⟩ : ∃ m, k = m + 1 := Nat.exists_eq_succ_of_ne_zero (Nat.ne_zero_of_lt hk)
    have hzero : c.ram[a]? = some 0 := hcells 0 (Nat.le_refl 0)
    have hsame : { c with stderr := c.stderr ++ String.ofList [] } = c := by simp
    rw [logsLoop_succ hflags harg (by simpa using ha) hzero, if_pos rfl, hsame]
    exact ⟨_, rfl⟩
  | cons ch chars ih =>
    rw [List.forall_mem_cons] at hbytes
    rw [List.length_cons] at hk ha hcells
    obtain ⟨k, rfl⟩ : ∃ m, k = m + 1 := Nat.exists_eq_succ_of_ne_zero (Nat.ne_zero_of_lt hk)
    have hfirst : c.ram[a]? = some (charWord ch) := hcells 0 (Nat.zero_le _)
    obtain ⟨⟨hbyte, hne⟩, hbytes⟩ := hbytes
    rw [logsLoop_succ hflags harg (by omega) hfirst, if_neg (charWord_ne_zero hbyte hne),
      charText_charWord hbyte]
    have hrest : ∃ q, logsLoop h k { c with stderr := c.stderr ++ ch.toString }
        { pcmd with arg0 := BitVec.ofNat 32 (a + 1) } =
          .ok ({ c with stderr := c.stderr ++ ch.toString ++ String.ofList chars }, q) := by
      refine ih hbytes (by omega) hflags rfl (by omega) fun j hj => ?_
      have hcell := hcells (j + 1) (by omega)
      rw [Nat.add_assoc, Nat.add_comm 1 j]
      exact hcell
    obtain ⟨q, hq⟩ := hrest
    have htext : c.stderr ++ ch.toString ++ String.ofList chars =
        c.stderr ++ String.ofList (ch :: chars) := by
      apply String.toList_inj.mp
      simp
    exact ⟨q, htext ▸ hq⟩

end Printing

section Program

variable {n : Source.Numeral} {chars : List Char} {buf : List Command}
  (words : Nat → Word) (un : Unspecified)

theorem length_closed (chars : List Char) : (closed chars).length = chars.length + 1 := by
  simp [closed]

theorem length_stringObject : (stringObject n chars).length = chars.length + 3 := by
  simp [stringObject, length_moves, length_closed]

/-- `page_load` of the saved program, and memory from `malloc`. -/
abbrev stringHost (n : Source.Numeral) (chars : List Char) : Host :=
  ObjectFile.host (ObjectFile.commandsSave (stringObject n chars)) (fun _ => some words) un

theorem stringObject_move {i : Nat} (hi : i < (closed chars).length) :
    (stringObject n chars)[i + 1]? = some ⟨modeBits .ram, Opcode.move.code,
      regLast + BitVec.ofNat 32 i, (closed chars)[i]⟩ := by
  rw [stringObject, List.getElem?_cons_succ,
    List.getElem?_append_left (by rw [length_moves]; exact hi), getElem?_moves,
    List.getElem?_eq_getElem hi, Nat.zero_add]
  rfl

theorem stringObject_logs :
    (stringObject n chars)[(closed chars).length + 1]? = some (logsOf regLast) := by
  rw [stringObject, List.getElem?_cons_succ,
    List.getElem?_append_right (by rw [length_moves]), length_moves, Nat.sub_self]
  rfl

variable (hbuf : 1 ≤ buf.length ∧ buf.length < 2 ^ 32) (hfit : Fits n.word (closed chars))
include hbuf hfit

theorem start_filled : ∃ c, start (stringHost words un n chars) (Chip.new buf) =
    .ok (.next (onPage (stringObject n chars) buf c)) ∧ Filled n.word (closed chars) 0 c := by
  have hlt := hfit.lt
  rw [length_closed] at hlt
  have hinit := initr_ok (h := stringHost words un n chars) (c := Chip.new [])
    ⟨0, Opcode.initr.code, n.word, 0⟩ rfl rfl (by simp only; omega)
  have hstart : flatStart (stringHost words un n chars) (stringObject n chars) =
      .ok (.next { Chip.new [] with ramsize := n.word, ram := initRam n.word words }) := by
    simp only [flatStart, stringObject, hinit, ok_bind]
    rfl
  have hlen : (initRam n.word words).length = n.word.toNat := by simp [initRam]
  have hin : ∀ r : Word, r.toNat < 35 → InRam ((List.range n.word.toNat).map words) r :=
    fun r hr => inRam_of_lt (by simp; omega) (by omega)
  refine ⟨_, by rw [start_onPage hbuf rfl, hstart]; rfl, rfl, hlen, ?_, fun _ hj => absurd hj (Nat.not_lt_zero _), rfl⟩
  rw [initRam, cell_set_ne (by decide), cell_set_ne (by decide), cell_set_self (hin _ (by decide))]
  rfl

/-- The moves of the first page. -/
theorem run_filled {i : Nat} (hi : i ≤ (closed chars).length) (hp : i + 1 ≤ buf.length) :
    ∃ c, Vm.run (stringHost words un n chars) (Chip.new buf) i =
      .ok (.next (onPage (stringObject n chars) buf c)) ∧ Filled n.word (closed chars) i c := by
  induction i with
  | zero =>
    obtain ⟨c, hstart, hf⟩ := start_filled words un hbuf hfit
    exact ⟨c, by rw [Vm.run, hstart]; rfl, hf⟩
  | succ i ih =>
    obtain ⟨c, hc, hf⟩ := ih (Nat.le_of_lt hi) (Nat.le_of_lt hp)
    obtain ⟨d, hd, hfilled⟩ := filled_turn (h := stringHost words un n chars) hbuf hfit hf hi hp
      (stringObject_move hi)
    exact ⟨d, (run_succ hc).trans hd, hfilled⟩

/-- The string is in its cells and on the screen, and the next command would be the one
behind the program. -/
structure Logged (buf : List Command) (chars : List Char) (s : Loop) : Prop where
  running : s.chip.state = .running
  pagecurrent : s.chip.pagecurrent = 0
  pagesize : s.chip.pagesize.toNat = buf.length
  length : s.chip.data.length = buf.length
  ncmds : s.ncmds = min (chars.length + 3) buf.length
  inRam : InRam s.chip.ram regPc
  pc : cell s.chip.ram regPc = BitVec.ofNat 32 (chars.length + 3)
  cells : closed chars <+: s.chip.ram.drop 35
  stderr : s.chip.stderr = String.ofList chars

omit hbuf in
/-- `logs` behind the moves. -/
theorem Filled.logs {h : Host} {c : Chip} (pg : Page)
    (hf : Filled n.word (closed chars) (closed chars).length c)
    (hbytes : ∀ ch ∈ chars, ch.toNat < 256 ∧ ch ≠ nul) :
    ∃ d q, execute h (c.withPage pg) (logsOf regLast) = .ok (d, q) ∧ d.page = pg ∧
      d.state = .running ∧ InRam d.ram regPc ∧
      cell d.ram regPc = BitVec.ofNat 32 (chars.length + 3) ∧ closed chars <+: d.ram.drop 35 ∧
      d.stderr = String.ofList chars := by
  have hlen := length_closed chars
  have hlt := hfit.lt
  have hin := hf.inRam hfit (List.ne_nil_of_length_pos (by omega))
  have hcells : ∀ j ≤ chars.length, (c.withPage pg).ram[35 + j]? = (closed chars)[j]? :=
    fun j hj => hf.cells j (by omega)
  have hflags : arg0fGet (logsOf regLast).flags = .ram := by decide
  obtain ⟨q, hq⟩ := logsLoop_string (h := h) (k := 2 ^ 32) (a := 35) hbytes (by omega) hflags rfl
    (by omega) hcells
  have hcmd : commands (.ofCode (logsOf regLast).cmd) h (c.withPage pg) (logsOf regLast) = _ :=
    (congrArg (commands · _ _ _) (Opcode.ofCode_code .logs)).trans hq
  refine ⟨_, q, execute_ok hcmd hin, rfl, hf.running, by simpa using hin, ?_, ?_, ?_⟩
  · have hself : cell (c.ram.set regPc.toNat (cell c.ram regPc + 1)) regPc = _ := cell_set_self hin
    refine hself.trans ?_
    rw [hf.pc, hlen]
    exact (BitVec.ofNat_add (chars.length + 2) 1).symm
  · rw [List.prefix_iff_getElem?]
    intro j hj
    have hreg : regPc.toNat = 32 := rfl
    rw [List.getElem?_drop, hreg, List.getElem?_set_ne (by omega), withPage_ram, hf.cells j hj,
      List.getElem?_eq_getElem hj]
  · simp [Chip.withPage, hf.stderr]

/-- All commands, where they are on the first page. -/
theorem run_logged (hbytes : ∀ ch ∈ chars, ch.toNat < 256 ∧ ch ≠ nul)
    (hp : chars.length + 3 ≤ buf.length) :
    ∃ s, Vm.run (stringHost words un n chars) (Chip.new buf) (chars.length + 2) = .ok (.next s) ∧
      Logged buf chars s := by
  have hlen := length_closed chars
  obtain ⟨c, hc, hf⟩ := run_filled words un hbuf hfit le_rfl (by rw [hlen]; omega)
  have hin := hf.inRam hfit (List.ne_nil_of_length_pos (by omega))
  have hnext : (closed chars).length + 1 < buf.length := by omega
  obtain ⟨hw, hidx⟩ := hf.within hfit le_rfl hnext
  have hend : pcIndex c < (stringObject n chars).length := by
    rw [hidx, hlen, length_stringObject]
    omega
  have hcur : current (onPage (stringObject n chars) buf c).chip = some (logsOf regLast) := by
    rw [current_onPage hw hend, hidx, stringObject_logs]
  obtain ⟨d, q, hexec, hpage, hrun, hinPc, hpc, hcells, hstderr⟩ :=
    hf.logs (h := stringHost words un n chars) hfit (firstPage (stringObject n chars) buf) hbytes
  have hturn := turnPage_onPage (h := stringHost words un n chars) hbuf
    (stringObject n chars) hf.running hin hw
  rw [if_neg (Nat.not_le.mpr hend)] at hturn
  have hlast := (run_succ hc).trans (turn_ok hturn hin hcur hexec)
  rw [hlen] at hlast
  refine ⟨_, hlast, hrun, congrArg Page.current hpage, ?_, ?_, ?_, hinPc, hpc, hcells, hstderr⟩
  · exact (congrArg (BitVec.toNat ·.size) hpage).trans (firstPage_size hbuf _)
  · exact List.length_set.trans ((congrArg (List.length ·.data) hpage).trans length_firstPage)
  · have hncmds : (onPage (stringObject n chars) buf c).ncmds =
      ((stringObject n chars).take buf.length).length := rfl
    rw [hncmds, List.length_take, length_stringObject]
    omega

omit hbuf hfit in
/-- The second page has commands, if the first one is too small. -/
theorem second_page {data : List Command} (hpos : 1 ≤ data.length) :
    0 < ((stringHost words un n chars).dataLoad 1 data).1 := by
  have hload : ((stringHost words un n chars).dataLoad 1 data).1 =
      (((stringObject n chars).drop (1 : Word).toNat).take data.length).length :=
    congrArg Prod.fst (ObjectFile.pageLoad_commandsSave (stringObject n chars) 1 data)
  have hone : (1 : Word).toNat = 1 := rfl
  rw [hload, hone, List.length_take, List.length_drop, length_stringObject]
  omega

omit hbuf hfit in
theorem Logged.pcIndex {s : Loop} (hl : Logged buf chars s) (hlt : chars.length + 3 < 2 ^ 31) :
    (cell s.chip.ram regPc).toInt = chars.length + 3 ∧ Vm.pcIndex s.chip = chars.length + 3 := by
  obtain ⟨hnat, hint⟩ := word_small hlt
  have hpc : (cell s.chip.ram regPc).toInt = (chars.length + 3 : Nat) := by rw [hl.pc, hint]
  refine ⟨hpc, ?_⟩
  rw [Vm.pcIndex, signExtend_toNat (by rw [hpc]; omega), hl.pc, hnat]

/-- The run ends behind the program. -/
theorem run_short (hbytes : ∀ ch ∈ chars, ch.toNat < 256 ∧ ch ≠ nul)
    (hp : chars.length + 3 < buf.length) :
    ∃ k s, Vm.run (stringHost words un n chars) (Chip.new buf) k = .ok (.stop s) ∧
      Logged buf chars s := by
  have hlt := hfit.lt
  rw [length_closed] at hlt
  obtain ⟨s, hs, hl⟩ := run_logged words un hbuf hfit hbytes (Nat.le_of_lt hp)
  obtain ⟨hint, hidx⟩ := hl.pcIndex (by omega)
  have hw : Within s.chip buf.length := by
    rw [Within, hint]
    omega
  have hstop := turnPage_first (h := stringHost words un n chars) hl.running hl.inRam
    hl.pagecurrent hl.pagesize hw
  rw [hidx, hl.ncmds, if_pos (by omega)] at hstop
  have hturn : turn (stringHost words un n chars) s = .ok (.stop s) := by
    rw [turn, hstop]
    rfl
  exact ⟨_, s, (run_succ hs).trans hturn, hl⟩

/-- With a page that is too small the run leaves it. -/
theorem run_long (hbytes : ∀ ch ∈ chars, ch.toNat < 256 ∧ ch ≠ nul)
    (hp : buf.length ≤ chars.length + 3) :
    ∃ k, Vm.run (stringHost words un n chars) (Chip.new buf) k = .error .pageBounds := by
  have hlen := length_closed chars
  have hlt := hfit.lt
  rcases Nat.lt_or_ge buf.length (chars.length + 3) with hp | hp
  · -- the first command that is not on the page is a move, or `logs`
    obtain ⟨i, hi⟩ : ∃ i, buf.length = i + 1 := Nat.exists_eq_add_of_le' hbuf.1
    obtain ⟨c, hc, hf⟩ := run_filled words un hbuf hfit (i := i) (by omega) (by omega)
    have hin := hf.inRam hfit (List.ne_nil_of_length_pos (by omega))
    obtain ⟨hnat, hint⟩ := word_small (k := i + 1) (by omega)
    have hnn : 0 ≤ (cell c.ram regPc).toInt := by
      rw [hf.pc, hint]
      omega
    have hdata : (firstPage (stringObject n chars) buf).data.length = buf.length :=
      length_firstPage
    refine ⟨_, (run_succ hc).trans (turn_behind hf.running hin rfl ?_ hnn ?_ ?_ ?_)⟩
    · exact (firstPage_size hbuf (stringObject n chars)).trans hdata.symm
    · have hidx : pcIndex c = i + 1 := by rw [pcIndex, signExtend_toNat hnn, hf.pc, hnat]
      exact hidx.trans (hi.symm.trans hdata.symm)
    · exact hbuf.1.trans_eq hdata.symm
    · exact second_page words un (hbuf.1.trans_eq hdata.symm)
  · -- the whole program is on the page, and fills it
    obtain ⟨s, hs, hl⟩ := run_logged words un hbuf hfit hbytes hp
    obtain ⟨hint, hidx⟩ := hl.pcIndex (by omega)
    refine ⟨_, (run_succ hs).trans (turn_behind hl.running hl.inRam hl.pagecurrent ?_ ?_ ?_ ?_ ?_)⟩
    · rw [hl.pagesize, hl.length]
    · rw [hint]
      omega
    · rw [hidx, hl.length]
      omega
    · rw [hl.length]
      exact hbuf.1
    · exact second_page words un (by rw [hl.length]; exact hbuf.1)

end Program

/-- The run ends with the string in the cells from `addr` on, closed by a `0`, and with
nothing else printed. -/
def Survives (h : Host) (buf : List Command) (addr : Word) (body : List Char) : Prop :=
  ∃ k s, Vm.run h (Chip.new buf) k = .ok (.stop s) ∧
    closed body <+: s.chip.ram.drop addr.toNat ∧ s.chip.stderr = String.ofList body

/-- Only a string without inner quotes is found whole. -/
theorem upToQuote_eq {body : List Char} : upToQuote body = body ↔ '"' ∉ body := by
  rw [upToQuote, List.takeWhile_eq_self_iff]
  constructor
  · intro h hq
    exact absurd (h '"' hq) (by decide)
  · intro h ch hch
    have hne : ch ≠ '"' := fun he => h (he ▸ hch)
    simpa using hne

theorem mem_upToQuote {body : List Char} {ch : Char} (h : ch ∈ upToQuote body) : ch ∈ body :=
  (List.takeWhile_prefix _).subset h

section Survival

variable {n : Source.Numeral} {body : List Char} {buf : List Command} (words : Nat → Word)
  (un : Unspecified) (hbuf : 1 ≤ buf.length ∧ buf.length < 2 ^ 32)
  (hfit : Fits n.word (closed (upToQuote body)))
  (hbytes : ∀ ch ∈ upToQuote body, ch.toNat < 256 ∧ ch ≠ nul)
include hbuf hfit hbytes

theorem survives_iff :
    Survives (stringHost words un n (upToQuote body)) buf regLast body ↔
      '"' ∉ body ∧ body.length + 3 < buf.length := by
  rcases Nat.lt_or_ge ((upToQuote body).length + 3) buf.length with hp | hp
  · obtain ⟨k, s, hs, hl⟩ := run_short words un hbuf hfit hbytes hp
    constructor
    · rintro ⟨k', s', hs', _, hstderr⟩
      cases run_unique hs hs' nofun nofun
      have heq : upToQuote body = body := by
        have htext := hl.stderr.symm.trans hstderr
        simpa using congrArg String.toList htext
      rw [heq] at hp
      exact ⟨upToQuote_eq.mp heq, hp⟩
    · rintro ⟨hquote, _⟩
      have hcells := hl.cells
      have hstderr := hl.stderr
      rw [upToQuote_eq.mpr hquote] at hcells hstderr
      exact ⟨k, s, hs, hcells, hstderr⟩
  · refine iff_of_false ?_ fun ⟨hquote, hlt⟩ => ?_
    · rintro ⟨k', s', hs', _⟩
      obtain ⟨k, hk⟩ := run_long words un hbuf hfit hbytes hp
      cases run_unique hk hs' nofun nofun
    · rw [upToQuote_eq.mpr hquote] at hp
      omega

end Survival

/-- A string literal comes through, to its cells and to the output, exactly if it has no
escaped quote and all commands are on the first page. -/
theorem string_survives_iff {code : Text} {n : Source.Numeral} {x body : List Char}
    {c : Asmchip32} (hread : ∃ lexed, lexer (.new code) = .ok lexed ∧
      lexed.vcmd.map shapes = stringTokens n x body)
    (hbytes : ∀ ch ∈ body, ch.toNat < 256) (hb : build code = .ok c)
    (hsize : (body.length + 36 : Int) ≤ n.word.toInt) (buf : List Command)
    (hbuf : buf.length < 2 ^ 32) (words : Nat → Word) (un : Unspecified) :
    ∃ dec, declareFind c.declare x = some dec ∧
      (Survives (ObjectFile.host (ObjectFile.commandsSave c.mc) (fun _ => some words) un) buf
          dec.addr body ↔ '"' ∉ body ∧ body.length + 3 < buf.length) := by
  obtain ⟨lexed, hlex, hshapes⟩ := hread
  obtain ⟨hmc, hfind, hnul⟩ := build_string hlex hshapes hb
  refine ⟨_, hfind, ?_⟩
  rw [hmc]
  cases buf with
  | nil =>
    refine iff_of_false ?_ fun h => nomatch h.2
    rintro ⟨k, s, hs, _⟩
    cases hs
  | cons b buf =>
    have hle : (upToQuote body).length ≤ body.length := (List.takeWhile_prefix _).length_le
    refine survives_iff words un ⟨by simp, hbuf⟩ ?_ fun ch hch => ?_
    · rw [Fits, length_closed]
      omega
    · exact ⟨hbytes ch (mem_upToQuote hch), fun he => hnul (he ▸ mem_upToQuote hch)⟩

/-- A greeting. -/
def greeting : Text := "initr 64\ndeclare s, ?, ?, \"hi\"\nlogs $s\n".toList

def sixtyFour : Source.Numeral where
  neg := false
  digits := ['6', '4']
  nonempty := List.cons_ne_nil _ _
  digits_ok := List.forall_mem_cons.mpr ⟨rfl, List.forall_mem_singleton.mpr rfl⟩
  fits := by decide

/-- A page as large as in `main.c`. -/
def emptyPage : List Command := List.replicate 512 ⟨0, 0, 0, 0⟩

theorem length_emptyPage : 1 ≤ emptyPage.length ∧ emptyPage.length < 2 ^ 32 := by
  rw [emptyPage, List.length_replicate]
  decide

theorem string_survives_iff_greeting : ∃ dec,
    declareFind (final (build greeting)).declare ['s'] = some dec ∧
      (Survives (ObjectFile.host (ObjectFile.commandsSave (final (build greeting)).mc)
        (fun _ => some fun _ => 0) ⟨⟨0, 0, 0, 0⟩, true⟩) emptyPage dec.addr ['h', 'i'] ↔
          '"' ∉ ['h', 'i'] ∧ ['h', 'i'].length + 3 < emptyPage.length) :=
  string_survives_iff (n := sixtyFour)
    ⟨final (lexer (.new greeting)), ok_final (by decide +kernel), by decide +kernel⟩
    (List.forall_mem_cons.mpr ⟨by decide, List.forall_mem_singleton.mpr (by decide)⟩)
    (ok_final (by decide +kernel)) (by decide) emptyPage length_emptyPage.2 _ _

/-- `a\"b`, with the quote escaped. -/
def escapedQuote : List Char := ['a', '\\', '"', 'b']

/-- It is cut behind the backslash. -/
theorem escapedQuote_cut :
    ∃ c, build ("initr 64\ndeclare s, ?, ?, ".toList ++ '"' :: (escapedQuote ++ '"' ::
        "\nlogs $s\n".toList)) = .ok c ∧
      ¬ Survives (ObjectFile.host (ObjectFile.commandsSave c.mc) (fun _ => some fun _ => 0)
        ⟨⟨0, 0, 0, 0⟩, true⟩) emptyPage regLast escapedQuote := by
  refine ⟨final _, ok_final (by decide +kernel), ?_⟩
  have hmc : (final (build ("initr 64\ndeclare s, ?, ?, ".toList ++ '"' :: (escapedQuote ++ '"' ::
      "\nlogs $s\n".toList)))).mc = stringObject sixtyFour (upToQuote escapedQuote) := by
    decide +kernel
  have hbytes : ∀ ch ∈ upToQuote escapedQuote, ch.toNat < 256 ∧ ch ≠ nul :=
    List.forall_mem_cons.mpr ⟨by decide, List.forall_mem_singleton.mpr (by decide)⟩
  have hfit : Fits sixtyFour.word (closed (upToQuote escapedQuote)) := by
    unfold Fits
    decide
  rw [hmc, survives_iff (fun _ => 0) ⟨⟨0, 0, 0, 0⟩, true⟩ length_emptyPage hfit hbytes]
  exact fun h => h.1 (by decide)

end Asm
