import Chip32.Vm
import Mathlib.Data.List.Basic

/-!
# Object files

`chip32_commands_save` writes ten bytes for each command; `chip32_command_load`
reads them back, and `page_load` of `main.c` reads a page of them. The file is
its list of bytes. A page read from a saved program is the program's commands
from the start address on, and `nop`s where there are none left.
-/
namespace ObjectFile

open Vm

abbrev Byte := BitVec 8

/-- The bytes of an `int32_t` in memory. -/
def leBytes (w : Word) : List Byte :=
  [w.extractLsb' 0 8, w.extractLsb' 8 8, w.extractLsb' 16 8, w.extractLsb' 24 8]

/-- The `int32_t` of four bytes in memory. -/
def ofLe (bs : List Byte) : Word := bs.getD 3 0 ++ bs.getD 2 0 ++ bs.getD 1 0 ++ bs.getD 0 0

theorem ofLe_leBytes (w : Word) : ofLe (leBytes w) = w := by
  apply BitVec.eq_of_getLsbD_eq
  intro i hi
  simp only [ofLe, leBytes, List.getD_cons_zero, List.getD_cons_succ, BitVec.getLsbD_append,
    BitVec.getLsbD_extractLsb']
  rcases Nat.lt_or_ge i 8 with h₁ | h₁
  · simp [h₁]
  rcases Nat.lt_or_ge i 16 with h₂ | h₂
  · simp [show i - 8 < 8 by omega, show ¬ i < 8 by omega, show 8 + (i - 8) = i by omega]
  rcases Nat.lt_or_ge i 24 with h₃ | h₃
  · simp [show ¬ i < 8 by omega, show ¬ i - 8 < 8 by omega, show i - 8 - 8 < 8 by omega,
      show 16 + (i - 8 - 8) = i by omega]
  · simp [show ¬ i < 8 by omega, show ¬ i - 8 < 8 by omega, show ¬ i - 8 - 8 < 8 by omega,
      show i - 8 - 8 - 8 < 8 by omega, show 24 + (i - 8 - 8 - 8) = i by omega]

/-- The bytes of one command in a file. -/
def commandBytes (p : Command) : List Byte := p.flags :: p.cmd :: (leBytes p.arg0 ++ leBytes p.arg1)

/-- The file of `chip32_commands_save`. -/
def commandsSave (mc : List Command) : List Byte := mc.flatMap commandBytes

/-- What the four `fwrite`s of a command are given. -/
def commandFields (p : Command) : List (List Byte) :=
  [[p.flags], [p.cmd], leBytes p.arg0, leBytes p.arg1]

/-- `fwrite`s from call `i` on, until one is not answered with 1: all they were given, and
whether there was none. -/
def fwrites (took : Nat → Bool) : Nat → List (List Byte) → List Byte × Bool
  | _, [] => ([], true)
  | i, bytes :: rest =>
    if took i then
      let (more, all) := fwrites took (i + 1) rest
      (bytes ++ more, all)
    else (bytes, false)

/-- `chip32_commands_save`, by what it gives to `fwrite` and whether it returns 0. -/
def commandsSaveOn (took : Nat → Bool) (mc : List Command) : List Byte × Bool :=
  fwrites took 0 (mc.flatMap commandFields)

section Writing

variable (took : Nat → Bool) (mc : List Command)

theorem prefix_fwrites (i : Nat) (pieces : List (List Byte)) :
    (fwrites took i pieces).1 <+: pieces.flatten := by
  induction pieces generalizing i with
  | nil => exact List.prefix_rfl
  | cons bytes rest ih =>
    rw [fwrites, List.flatten_cons]
    split
    · exact (List.prefix_append_right_inj bytes).mpr (ih (i + 1))
    · exact List.prefix_append bytes _

theorem fwrites_all {i : Nat} {pieces : List (List Byte)} (h : (fwrites took i pieces).2 = true) :
    (fwrites took i pieces).1 = pieces.flatten := by
  induction pieces generalizing i with
  | nil => rfl
  | cons bytes rest ih =>
    rw [fwrites] at h ⊢
    split at h
    · next htook =>
      rw [if_pos htook, List.flatten_cons]
      exact congrArg (bytes ++ ·) (ih h)
    · cases h

theorem flatten_commandFields : (mc.flatMap commandFields).flatten = commandsSave mc := by
  induction mc with
  | nil => rfl
  | cons p mc ih =>
    rw [List.flatMap_cons, List.flatten_append, ih, commandsSave, commandsSave, List.flatMap_cons]
    simp [commandFields, commandBytes]

/-- What is given to `fwrite` is a beginning of the file. -/
theorem prefix_commandsSaveOn : (commandsSaveOn took mc).1 <+: commandsSave mc := by
  rw [← flatten_commandFields]
  exact prefix_fwrites took 0 _

theorem commandsSaveOn_all (h : (commandsSaveOn took mc).2 = true) :
    (commandsSaveOn took mc).1 = commandsSave mc := by
  rw [← flatten_commandFields]
  exact fwrites_all took h

theorem commandsSaveOn_took (h : ∀ i, took i = true) : (commandsSaveOn took mc).2 = true := by
  have hall : ∀ i pieces, (fwrites took i pieces).2 = true := by
    intro i pieces
    induction pieces generalizing i with
    | nil => rfl
    | cons bytes rest ih =>
      rw [fwrites, if_pos (h i)]
      exact ih (i + 1)
  exact hall 0 _

end Writing

/-- `fread` of one `int32_t`: whether it was complete, what is in memory then
(the bytes there are overwritten one by one), and the rest of the file. -/
def freadWord (old : Word) (f : List Byte) : Bool × Word × List Byte :=
  (4 ≤ f.length, ofLe (f.take 4 ++ (leBytes old).drop (f.take 4).length), f.drop 4)

/-- `chip32_command_load`; the command keeps what it had where the file ends. -/
def commandLoad (cmd : Command) : List Byte → Int × Command × List Byte
  | [] => (-1, cmd, [])
  | [flags] => (-1, { cmd with flags := flags }, [])
  | flags :: code :: f =>
    match freadWord cmd.arg0 f with
    | (false, arg0, f) => (-1, { cmd with flags := flags, cmd := code, arg0 := arg0 }, f)
    | (true, arg0, f) =>
      match freadWord cmd.arg1 f with
      | (false, arg1, f) => (-1, ⟨flags, code, arg0, arg1⟩, f)
      | (true, arg1, f) => (0, ⟨flags, code, arg0, arg1⟩, f)

/-- A command of a page that the file does not reach. -/
def unloaded (cmd : Command) : Command := { cmd with cmd := 0 }

/-- The two loops of `page_load`: commands are loaded until one fails. -/
def loadPage : List Command → List Byte → Nat × List Command
  | [], _ => (0, [])
  | cmd :: data, f =>
    match commandLoad cmd f with
    | (ret, cmd, f) =>
      if ret = 0 then
        let (n, data) := loadPage data f
        (n + 1, cmd :: data)
      else (0, unloaded cmd :: data.map unloaded)

/-- `page_load`, which seeks to command number `addr` of the file. -/
def pageLoad (f : List Byte) (addr : Word) (data : List Command) : Int × List Command :=
  let (n, data) := loadPage data (f.drop (addr.toNat * 10))
  (n, data)

theorem length_loadPage (data : List Command) (f : List Byte) :
    (loadPage data f).2.length = data.length := by
  induction data generalizing f with
  | nil => rfl
  | cons cmd data ih =>
    unfold loadPage
    split
    split
    · simp [ih]
    · simp

/-- The machine of `main.c`: it loads its pages from a file. -/
def host (f : List Byte) (malloc : Word → Option (Nat → Word)) (un : Unspecified) : Host where
  toUnspecified := un
  dataLoad := pageLoad f
  length_dataLoad _ data := length_loadPage data _
  malloc := malloc

@[simp] theorem length_commandBytes (p : Command) : (commandBytes p).length = 10 := rfl

theorem freadWord_leBytes (old w : Word) (f : List Byte) :
    freadWord old (leBytes w ++ f) = (true, w, f) := by
  have hlen : (leBytes w).length = 4 := rfl
  have htake : (leBytes w ++ f).take 4 = leBytes w := List.take_left' hlen
  have hdrop : (leBytes w ++ f).drop 4 = f := List.drop_left' hlen
  have hrest : (leBytes old).drop (leBytes w).length = [] := rfl
  simp only [freadWord, htake, hdrop, hrest, List.append_nil, ofLe_leBytes]
  simp [hlen]

theorem commandLoad_commandBytes (cmd p : Command) (f : List Byte) :
    commandLoad cmd (commandBytes p ++ f) = (0, p, f) := by
  simp only [commandBytes, List.cons_append, List.append_assoc, commandLoad, freadWord_leBytes]

theorem drop_commandsSave (mc : List Command) (n : Nat) :
    (commandsSave mc).drop (n * 10) = commandsSave (mc.drop n) := by
  induction n generalizing mc with
  | zero => simp
  | succ n ih =>
    cases mc with
    | nil => simp [commandsSave]
    | cons p mc =>
      have hp : (n + 1) * 10 = (commandBytes p).length + n * 10 := by
        rw [length_commandBytes]
        omega
      rw [commandsSave, List.flatMap_cons, hp, List.drop_length_add_append, List.drop_succ_cons]
      exact ih mc

/-- A page of a saved program: its commands, then entries without one. -/
theorem loadPage_commandsSave (data mc : List Command) :
    loadPage data (commandsSave mc) =
      ((mc.take data.length).length, mc.take data.length ++ (data.drop mc.length).map unloaded) := by
  induction data generalizing mc with
  | nil => simp [loadPage]
  | cons cmd data ih =>
    cases mc with
    | nil => simp [loadPage, commandsSave, commandLoad]
    | cons p mc =>
      have hsave : commandsSave (p :: mc) = commandBytes p ++ commandsSave mc := List.flatMap_cons ..
      rw [loadPage, hsave, commandLoad_commandBytes]
      simp [ih]

theorem pageLoad_commandsSave (mc : List Command) (addr : Word) (data : List Command) :
    pageLoad (commandsSave mc) addr data =
      (Int.ofNat ((mc.drop addr.toNat).take data.length).length,
        (mc.drop addr.toNat).take data.length ++
          (data.drop (mc.drop addr.toNat).length).map unloaded) := by
  simp only [pageLoad, drop_commandsSave, loadPage_commandsSave, Int.ofNat_eq_natCast]

/-- What `page_load` leaves of a page: the program's commands from `addr` on in its
first entries, and no opcode in the others. -/
structure Loaded (mc : List Command) (addr : Nat) (data page : List Command) : Prop where
  length : page.length = data.length
  entry : ∀ i < data.length, ∀ p, mc[addr + i]? = some p → page[i]? = some p
  rest : ∀ i < data.length, mc.length ≤ addr + i → page[i]?.map Command.cmd = some 0

theorem loaded_pageLoad (mc : List Command) (addr : Word) (data : List Command) :
    Loaded mc addr.toNat data (pageLoad (commandsSave mc) addr data).2 := by
  rw [pageLoad_commandsSave]
  constructor
  · simp only [List.length_append, List.length_take, List.length_map, List.length_drop]
    omega
  · intro i hi p hp
    have hlt := (List.getElem?_eq_some_iff.mp hp).1
    rw [List.getElem?_append_left (by simp only [List.length_take, List.length_drop]; omega),
      List.getElem?_take_of_lt hi, List.getElem?_drop, hp]
  · intro i hi hge
    have hlen : ((mc.drop addr.toNat).take data.length).length = mc.length - addr.toNat := by
      simp only [List.length_take, List.length_drop]
      omega
    have hentry : (data.drop (mc.length - addr.toNat))[i - (mc.length - addr.toNat)]? = some data[i] := by
      rw [List.getElem?_drop, Nat.add_sub_cancel' (by omega), List.getElem?_eq_getElem hi]
    rw [List.getElem?_append_right (by omega), hlen, List.length_drop, List.getElem?_map, hentry]
    rfl

theorem pageLoad_count (mc : List Command) (addr : Word) (data : List Command) :
    (pageLoad (commandsSave mc) addr data).1 =
      min (data.length : Int) (max 0 (mc.length - addr.toNat)) := by
  rw [pageLoad_commandsSave]
  simp only [List.length_take, List.length_drop, Int.ofNat_eq_natCast]
  omega

/-- The operand `@k` of a saved program. -/
theorem getword_data (mc : List Command) (malloc : Word → Option (Nat → Word)) (un : Unspecified)
    (c : Chip) (k : Word) :
    getword (host (commandsSave mc) malloc un) c .data k = .ok
      (match mc[k.toNat]? with
        | some p => (p.arg0, c)
        | none => (un.tmp.arg0, { c with state := .fail })) := by
  simp only [getword, host, pageLoad_commandsSave, List.length_singleton, Runs.pure_ok]
  cases hp : mc[k.toNat]? with
  | none =>
    have hdrop : mc.drop k.toNat = [] := List.drop_eq_nil_of_le (List.getElem?_eq_none_iff.mp hp)
    simp [hdrop, unloaded]
  | some p =>
    obtain ⟨hlt, rfl⟩ := List.getElem?_eq_some_iff.mp hp
    rw [List.drop_eq_getElem_cons hlt]
    rfl

/-- A program that was saved is loaded as it was, from any command on and in pages
of any size, and `@k` is the first argument of its command `k`. -/
theorem saved_loaded (mc : List Command) (malloc : Word → Option (Nat → Word)) (un : Unspecified) :
    (∀ (addr : Word) (data : List Command),
      (pageLoad (commandsSave mc) addr data).1 =
          min (data.length : Int) (max 0 (mc.length - addr.toNat)) ∧
        Loaded mc addr.toNat data (pageLoad (commandsSave mc) addr data).2) ∧
    ∀ (c : Chip) (k : Word),
      (∀ p, mc[k.toNat]? = some p →
        getword (host (commandsSave mc) malloc un) c .data k = .ok (p.arg0, c)) ∧
      (mc.length ≤ k.toNat ∨ k.toInt < 0 ∧ mc.length ≤ 2 ^ 31 →
        getword (host (commandsSave mc) malloc un) c .data k =
          .ok (un.tmp.arg0, { c with state := .fail })) := by
  refine ⟨fun addr data => ⟨pageLoad_count mc addr data, loaded_pageLoad mc addr data⟩,
    fun c k => ⟨fun p hp => ?_, fun hk => ?_⟩⟩
  · rw [getword_data, hp]
  · have hge : mc.length ≤ k.toNat := by
      rcases hk with hk | ⟨hneg, hlen⟩
      · exact hk
      · rw [BitVec.toInt_eq_toNat_cond] at hneg
        split at hneg <;> omega
    rw [getword_data, List.getElem?_eq_none hge]

end ObjectFile
