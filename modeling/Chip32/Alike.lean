import Chip32.Numbers
import Chip32.Strings
import Mathlib.Data.List.Forall2

/-!
# What a token is worth

The parser compares types, values and strings, and names. It cannot tell apart tokens
at different places, in sources of different length, and of a state it looks at the
commands and two counters beside the table.
-/
namespace Asm

open Runs Vm Grammar

theorem takeWhile_stop {p : Char → Bool} (l : Text) {q : Text} (hq : p (deref q) = false) :
    (l ++ q).takeWhile p = l.takeWhile p := by
  induction l with
  | nil =>
    cases q with
    | nil => rfl
    | cons c q => simpa [List.takeWhile_cons] using hq
  | cons c l ih => rw [List.cons_append, List.takeWhile_cons, List.takeWhile_cons, ih]

/-- `strtoul` stays in the number it starts at. -/
theorem strtoul_number (n : Number) {q : Text} (hq : inInteger (deref q) = false) :
    strtoul (n.text ++ q) = strtoul n.text := by
  have hspace := not_isSpace n.head_ok
  have hdigit : isDigit (deref q) = false := (Bool.or_eq_false_iff.mp hq).1
  have hsign : (if n.head = '-' ∨ n.head = '+' then n.tail ++ q else n.head :: (n.tail ++ q)) =
      (if n.head = '-' ∨ n.head = '+' then n.tail else n.head :: n.tail) ++ q := by
    split_ifs <;> rfl
  simp only [strtoul, Word.text, List.cons_append, List.dropWhile_cons, hspace, deref_cons,
    Bool.false_eq_true, if_false, List.tail_cons]
  rw [hsign, takeWhile_stop _ hdigit]

theorem drop_upToQuote (body q : List Char) :
    deref ((body ++ '"' :: q).drop (upToQuote body).length) = '"' := by
  induction body with
  | nil => rfl
  | cons c body ih =>
    by_cases hc : c = '"'
    · simp [upToQuote, hc]
    · simpa [upToQuote, hc] using ih

theorem Lexed.strtoul_text {tk : Lextoken} (h : Lexed tk) (ht : tk.type = .literalNum) :
    strtoul tk.start = strtoul tk.text := by
  obtain ⟨⟨n, hn⟩, hstop⟩ := h.ends ht
  have htext : tk.text = n.text := by
    rw [Lextoken.text, hn]
    simp
  rw [hn, htext, strtoul_number n hstop]

theorem Lexed.char_text {tk : Lextoken} (h : Lexed tk) (ht : tk.type = .literalChar) :
    deref tk.start.tail = deref tk.text.tail := by
  obtain ⟨b, hb⟩ := spells_char (ht ▸ h.spells)
  obtain ⟨q, hq⟩ := start_eq tk
  rw [hq, hb, Body.quoted]
  cases b.text <;> rfl

theorem Lexed.string_text {tk : Lextoken} (h : Lexed tk) (ht : tk.type = .literalStr) :
    stringBody tk = upToQuote tk.text.tail.dropLast ∧
      deref (tk.start.tail.drop (stringBody tk).length) ≠ nul := by
  obtain ⟨b, hb⟩ := spells_str (ht ▸ h.spells)
  obtain ⟨q, hq⟩ := start_eq tk
  have htail : tk.start.tail = b.text ++ '"' :: q := by
    rw [hq, hb, Body.quoted]
    simp
  have hbody : stringBody tk = upToQuote b.text := by
    rw [stringBody, htail]
    exact takeWhile_quoted (nul_notMem_body b) q
  constructor
  · rw [hbody, hb, Body.quoted]
    simp
  · rw [hbody, htail, drop_upToQuote]
    decide

/-- Two tokens that the parser cannot tell apart but for their names. -/
structure Alike (tk tk' : Lextoken) : Prop where
  type : tk'.type = tk.type
  value : strtoul tk'.start = strtoul tk.start
  init : initValue tk' = initValue tk
  string : tk.type = .literalStr → stringBody tk' = stringBody tk ∧
    deref (tk'.start.tail.drop (stringBody tk').length) ≠ nul

theorem Lexed.alike {tk tk' : Lextoken} (h : Lexed tk) (h' : Lexed tk')
    (ht : tk'.type = tk.type) (htext : tk.type ≠ .name → tk'.text = tk.text) : Alike tk tk' := by
  have hvalue : strtoul tk'.start = strtoul tk.start := by
    by_cases hnum : tk.type = .literalNum
    · rw [h'.strtoul_text (ht.trans hnum), h.strtoul_text hnum, htext (by simp [hnum])]
    · obtain ⟨q, hq⟩ := start_eq tk
      obtain ⟨q', hq'⟩ := start_eq tk'
      rw [hq, hq', strtoul_spells h.spells hnum, strtoul_spells h'.spells (by rwa [ht])]
  refine ⟨ht, hvalue, ?_, fun hstr => ?_⟩
  · unfold initValue
    rw [ht]
    cases htype : tk.type with
    | literalNum => simp only [number, hvalue]
    | literalChar =>
      simp only [h'.char_text (ht.trans htype), h.char_text htype, htext (by simp [htype])]
    | _ => rfl
  · obtain ⟨hbody, _⟩ := h.string_text hstr
    obtain ⟨hbody', hend⟩ := h'.string_text (ht.trans hstr)
    rw [htext (by simp [hstr])] at hbody'
    exact ⟨hbody'.trans hbody.symm, hend⟩

/-- The address of a declaration does not depend on its name. -/
theorem place_alike {c d : Asmchip32} (havaddr : d.avaddr = c.avaddr) {tk tk' pl pl' : Lextoken}
    (htk : Alike tk tk') (hpl : Alike pl pl') : place d tk' pl' = place c tk pl := by
  rw [place, place, hpl.type, havaddr, number, number, htk.value]

/-- The same line but for its names. -/
def AlikeLines (cmd cmd' : Lexcmd) : Prop := List.Forall₂ Alike cmd cmd'

section Lines

variable {cmd cmd' : Lexcmd} {i : Nat} {tk : Lextoken}

theorem AlikeLines.length (h : AlikeLines cmd cmd') : cmd'.length = cmd.length :=
  (List.Forall₂.length_eq h).symm

theorem AlikeLines.at (h : AlikeLines cmd cmd') (htk : cmd[i]? = some tk) :
    ∃ tk', cmd'[i]? = some tk' ∧ Alike tk tk' := by
  obtain ⟨hi, rfl⟩ := List.getElem?_eq_some_iff.mp htk
  have hi' : i < cmd'.length := h.length ▸ hi
  exact ⟨cmd'[i], List.getElem?_eq_getElem hi', List.Forall₂.get h hi hi'⟩

theorem AlikeLines.none (h : AlikeLines cmd cmd') (hi : cmd[i]? = none) : cmd'[i]? = none := by
  rw [List.getElem?_eq_none_iff] at hi ⊢
  rwa [h.length]

theorem alikeLines_of_at (hlen : cmd'.length = cmd.length)
    (h : ∀ (i : Nat) tk, cmd[i]? = some tk → ∃ tk', cmd'[i]? = some tk' ∧ Alike tk tk') :
    AlikeLines cmd cmd' := by
  refine List.forall₂_iff_get.mpr ⟨hlen.symm, fun i hi hi' => ?_⟩
  obtain ⟨tk', htk', halike⟩ := h i cmd[i] (List.getElem?_eq_getElem hi)
  rw [List.getElem?_eq_getElem hi'] at htk'
  cases htk'
  exact halike

theorem AlikeLines.rvaluePos_eq (h : AlikeLines cmd cmd') (ic : Nat) :
    rvaluePos cmd' ic = rvaluePos cmd ic := by
  unfold rvaluePos
  cases htk : cmd[ic]? with
  | none => rw [h.none htk]
  | some tk =>
    obtain ⟨tk', htk', halike⟩ := h.at htk
    rw [htk', Option.map_some, Option.map_some, halike.type]

theorem AlikeLines.initValues (h : AlikeLines cmd cmd') :
    cmd'.map initValue = cmd.map initValue := by
  apply List.ext_getElem?
  intro i
  rw [List.getElem?_map, List.getElem?_map]
  cases htk : cmd[i]? with
  | none => rw [h.none htk]
  | some tk =>
    obtain ⟨tk', htk', halike⟩ := h.at htk
    rw [htk', Option.map_some, Option.map_some, halike.init]

/-- A declaration with other names asks for the same storage. -/
theorem AlikeLines.storage (h : AlikeLines cmd cmd') {n : BitVec 64} {vs : List Word}
    (hst : Storage cmd n vs) : Storage cmd' n vs := by
  cases hst with
  | cell h₃ => exact .cell (h.none h₃)
  | string h₃ hsize h₄ hinit hend =>
    obtain ⟨size', h₃', hs⟩ := h.at h₃
    obtain ⟨init', h₄', hi⟩ := h.at h₄
    obtain ⟨hbody, hend'⟩ := hi.string hinit
    rw [← hbody]
    exact .string h₃' (by rwa [hs.type]) h₄' (hi.type.trans hinit) hend'
  | list h₃ hsize h₄ hinit hzero hlen hlt hvs =>
    obtain ⟨size', h₃', hs⟩ := h.at h₃
    obtain ⟨init', h₄', hi⟩ := h.at h₄
    rw [← hi.value] at hzero hlen ⊢
    refine .list h₃' (hs.type.trans hsize) h₄' (by rwa [hi.type]) hzero hlen ?_ ?_
    · rwa [h.length]
    · rw [← hvs, List.map_take, List.map_drop, h.initValues, ← List.map_drop, ← List.map_take]

end Lines

/-- Two states that have emitted the same and stand at the same line. -/
structure Abreast (c d : Asmchip32) : Prop where
  mc : d.mc = c.mc
  avaddr : d.avaddr = c.avaddr
  count : d.vcmd.length = c.vcmd.length

section States

variable {c d e : Asmchip32} {cmd cmd' : Lexcmd}

theorem Abreast.symm (h : Abreast c d) : Abreast d c :=
  ⟨h.mc.symm, h.avaddr.symm, h.count.symm⟩

theorem Abreast.trans (h : Abreast c d) (h' : Abreast d e) : Abreast c e :=
  ⟨h'.mc.trans h.mc, h'.avaddr.trans h.avaddr, h'.count.trans h.count⟩

theorem abreast_markLabel (c : Asmchip32) (tk : Lextoken) : Abreast c (markLabel c tk) := by
  obtain ⟨hmc, havaddr, hvcmd⟩ := markLabel_keeps c tk
  exact ⟨hmc, havaddr, congrArg List.length hvcmd⟩

theorem abreast_refused (hf : ¬ LabelFresh c.declare cmd) : Abreast c (tryLabel c cmd) := by
  obtain ⟨hmc, havaddr, hvcmd, _⟩ := tryLabel_refused hf
  exact ⟨hmc, havaddr, congrArg List.length hvcmd⟩

theorem Abreast.markLabel (h : Abreast c d) (tk tk' : Lextoken) :
    Abreast (markLabel c tk) (markLabel d tk') :=
  ((abreast_markLabel c tk).symm.trans h).trans (abreast_markLabel d tk')

theorem Abreast.refused (h : Abreast c d) (hf : ¬ LabelFresh c.declare cmd)
    (hf' : ¬ LabelFresh d.declare cmd') : Abreast (tryLabel c cmd) (tryLabel d cmd') :=
  ((abreast_refused hf).symm.trans h).trans (abreast_refused hf')

theorem Abreast.emit (h : Abreast c d) (m : Command) : Abreast (c.emit m) (d.emit m) :=
  ⟨congrArg (· ++ [m]) h.mc, h.avaddr, h.count⟩

theorem Abreast.stored (h : Abreast c d) (addr : Word) (dauto : Bool) (n : BitVec 64)
    (vs : List Word) : Abreast (stored c addr dauto n vs) (stored d addr dauto n vs) := by
  have hmc := congrArg (· ++ moves addr 0 vs) h.mc
  cases dauto with
  | false => exact ⟨hmc, h.avaddr, h.count⟩
  | true => exact ⟨hmc, congrArg (· + n) h.avaddr, h.count⟩

theorem Abreast.mccount (h : Abreast c d) : d.mccount = c.mccount := by
  rw [Asmchip32.mccount, Asmchip32.mccount, h.mc]

end States

end Asm
