import Chip32.Lexer
import Mathlib.Data.List.TakeDrop
import Mathlib.Data.List.TakeWhile

/-!
# The report of an error

`chip32_compiler_error_print` shows the line the error stands in and a caret under it. It
looks for the line's two ends from `parse` on. At a newline the search for the start ends
at once, behind the end; and the test that is to shorten a long line asks for a start
behind the end, which never is by more than one.
-/
namespace Asm

/-- Where the shown part of the source starts and ends. -/
structure Span where
  startline : Int
  endline : Int
  deriving DecidableEq, Repr

/-- `endline` goes on to a newline or the end, from an offset on. -/
def endlineLoop : Text → Nat → Nat
  | [], i => i
  | ch :: p, i => if ch ≠ nul ∧ ch ≠ '\n' then endlineLoop p (i + 1) else i

/-- `startline` goes back to a newline or the first character. -/
def startlineLoop (code : Text) : Nat → Nat
  | 0 => 0
  | i + 1 => if deref (code.drop (i + 1)) ≠ '\n' then startlineLoop code i else i + 1

/-- A start that stands on a newline moves behind it. -/
def pastNewline (code : Text) (startline : Nat) : Nat :=
  if deref (code.drop startline) = '\n' then startline + 1 else startline

/-- The two ends as `chip32_compiler_error_print` computes them, offsets into the source. -/
def errorSpan (code : Text) (parse : Nat) : Span :=
  let endline : Int := endlineLoop (code.drop parse) parse
  let startline : Int := pastNewline code (startlineLoop code parse)
  if startline - endline > 100 then ⟨parse - 50, parse + 50⟩ else ⟨startline, endline⟩

/-- `%.*s`, with the precision cast to an `int`; a negative one counts for none. -/
def printed (code : Text) (s : Span) : Text :=
  let precision := (s.endline - s.startline).bmod (2 ^ 32)
  let rest := (code.drop s.startline.toNat).takeWhile (· ≠ nul)
  if precision < 0 then rest else rest.take precision.toNat

/-- What the call writes to `stderr` and to `stdout`. -/
structure Report where
  stderr : Text
  stdout : Text
  deriving DecidableEq, Repr

/-- `chip32_compiler_error_print` for the source `code`. -/
def errorPrint (code : Text) (c : Asmchip32) : Report :=
  match c.error with
  | none => ⟨[], []⟩
  | some error =>
    let parse := code.length - c.parse.length
    let s := errorSpan code parse
    { stderr := "error: ".toList ++ error.toList ++ " at line:".toList ++
        (toString c.line).toList ++ ['\n'] ++ printed code s ++ ['\n']
      stdout := List.replicate ((parse : Int) - s.startline).toNat ' ' ++ ['^', '\n'] }

/-- Where the line of the offset starts: behind the last newline in front of it. -/
def lineStart (code : Text) (parse : Nat) : Nat :=
  ((code.take parse).reverse.dropWhile (· ≠ '\n')).length

/-- Where the line ends: at the first newline from the offset on. -/
def lineEnd (code : Text) (parse : Nat) : Nat :=
  parse + ((code.drop parse).takeWhile (· ≠ '\n')).length

/-- The characters from `startline` up to `endline`. -/
def Span.text (code : Text) (s : Span) : Text :=
  (code.drop s.startline.toNat).take (s.endline - s.startline).toNat

/-- The span shows the line of the offset. -/
structure ShowsLine (code : Text) (parse : Nat) (s : Span) : Prop where
  start_le : s.startline ≤ parse
  ordered : s.startline ≤ s.endline
  unbroken : '\n' ∉ s.text code
  inside : lineStart code parse ≤ s.startline ∧ s.endline ≤ lineEnd code parse
  whole : lineEnd code parse - lineStart code parse ≤ 100 →
    s = ⟨lineStart code parse, lineEnd code parse⟩
  limited : 100 < lineEnd code parse - lineStart code parse → s.endline - s.startline ≤ 100

theorem lineStart_le (code : Text) (parse : Nat) : lineStart code parse ≤ parse := by
  have h := (List.dropWhile_sublist (· ≠ '\n') (l := (code.take parse).reverse)).length_le
  rw [List.length_reverse, List.length_take] at h
  exact h.trans (Nat.min_le_left ..)

theorem le_lineEnd (code : Text) (parse : Nat) : parse ≤ lineEnd code parse :=
  Nat.le_add_right ..

theorem endlineLoop_eq {p : Text} (hnul : nul ∉ p) (i : Nat) :
    endlineLoop p i = i + (p.takeWhile (· ≠ '\n')).length := by
  induction p generalizing i with
  | nil => rfl
  | cons ch p ih =>
    rw [List.mem_cons, not_or] at hnul
    by_cases hch : ch = '\n'
    · simp [endlineLoop, hch]
    · rw [endlineLoop, if_pos ⟨Ne.symm hnul.1, hch⟩, ih hnul.2,
        List.takeWhile_cons_of_pos (by simpa), List.length_cons]
      omega

/-- One offset on, in a line that is not left. -/
theorem lineStart_succ (code : Text) (i : Nat) (hi : i < code.length) :
    lineStart code (i + 1) = if code[i] = '\n' then i + 1 else lineStart code i := by
  rw [lineStart, List.take_succ_eq_append_getElem hi, List.reverse_append, List.reverse_singleton,
    List.singleton_append]
  by_cases h : code[i] = '\n'
  · rw [List.dropWhile_cons_of_neg (by simpa using h), if_pos h]
    simp
    omega
  · rw [List.dropWhile_cons_of_pos (by simpa using h), if_neg h, lineStart]

theorem deref_drop {code : Text} {i : Nat} (hi : i < code.length) :
    deref (code.drop i) = code[i] := by
  rw [List.drop_eq_getElem_cons hi, deref_cons]

theorem startlineLoop_newline {code : Text} {parse : Nat}
    (hon : deref (code.drop parse) = '\n') : startlineLoop code parse = parse := by
  cases parse with
  | zero => rfl
  | succ i => rw [startlineLoop, if_neg (not_not_intro hon)]

/-- Off a newline the search finds the start of the line. -/
theorem startline_eq {code : Text} {parse : Nat} (hparse : parse ≤ code.length)
    (hoff : deref (code.drop parse) ≠ '\n') :
    pastNewline code (startlineLoop code parse) = lineStart code parse := by
  induction parse with
  | zero =>
    rw [startlineLoop, pastNewline, if_neg hoff]
    exact (Nat.le_zero.mp (lineStart_le code 0)).symm
  | succ i ih =>
    have hi : i < code.length := hparse
    rw [startlineLoop, if_pos hoff, lineStart_succ code i hi]
    by_cases hnewline : code[i] = '\n'
    · have hstop : startlineLoop code i = i := startlineLoop_newline (by rwa [deref_drop hi])
      rw [hstop, pastNewline, if_pos (by rwa [deref_drop hi]), if_pos hnewline]
    · rw [if_neg hnewline]
      exact ih (Nat.le_of_lt hi) (by rwa [deref_drop hi])

theorem endline_eq {code : Text} (hnul : nul ∉ code) (parse : Nat) :
    endlineLoop (code.drop parse) parse = lineEnd code parse :=
  endlineLoop_eq (fun h => hnul (List.mem_of_mem_drop h)) parse

/-- The line is what stands around the offset up to newlines. -/
theorem line_text (code : Text) {parse : Nat} (hparse : parse ≤ code.length) :
    Span.text code ⟨lineStart code parse, lineEnd code parse⟩ =
      ((code.take parse).reverse.takeWhile (· ≠ '\n')).reverse ++
        (code.drop parse).takeWhile (· ≠ '\n') := by
  have htake : code.take parse = ((code.take parse).reverse.dropWhile (· ≠ '\n')).reverse ++
      ((code.take parse).reverse.takeWhile (· ≠ '\n')).reverse := by
    rw [← List.reverse_append, List.takeWhile_append_dropWhile, List.reverse_reverse]
  have hlen := congrArg List.length htake
  rw [List.length_append, List.length_reverse, List.length_take, Nat.min_eq_left hparse] at hlen
  change parse = lineStart code parse + _ at hlen
  have hdrop : code.drop (lineStart code parse) =
      ((code.take parse).reverse.takeWhile (· ≠ '\n')).reverse ++ code.drop parse := by
    have hcode := (List.take_append_drop parse code).symm
    rw [htake, List.append_assoc] at hcode
    exact (congrArg (List.drop (lineStart code parse)) hcode).trans
      (List.drop_left' List.length_reverse)
  have hline : ((lineEnd code parse : Int) - lineStart code parse).toNat =
      ((code.take parse).reverse.takeWhile (· ≠ '\n')).reverse.length +
        ((code.drop parse).takeWhile (· ≠ '\n')).length := by
    rw [lineEnd]
    omega
  rw [Span.text, Int.toNat_natCast, hdrop, hline, List.take_length_add_append,
    ← List.prefix_iff_eq_take.mp (List.takeWhile_prefix _)]

theorem newline_notMem_line (code : Text) {parse : Nat} (hparse : parse ≤ code.length) :
    '\n' ∉ Span.text code ⟨lineStart code parse, lineEnd code parse⟩ := by
  rw [line_text code hparse, List.mem_append, List.mem_reverse]
  rintro (h | h)
  · simpa using List.mem_takeWhile_imp h
  · simpa using List.mem_takeWhile_imp h

/-- Off a newline the span is the whole line, however long. -/
theorem errorSpan_line {code : Text} (hnul : nul ∉ code) {parse : Nat}
    (hparse : parse ≤ code.length) (hoff : deref (code.drop parse) ≠ '\n') :
    errorSpan code parse = ⟨lineStart code parse, lineEnd code parse⟩ := by
  have hstart := lineStart_le code parse
  have hend := le_lineEnd code parse
  rw [errorSpan, endline_eq hnul, startline_eq hparse hoff]
  exact if_neg (by omega)

/-- At a newline the span ends before it starts. -/
theorem errorSpan_newline {code : Text} (hnul : nul ∉ code) {parse : Nat}
    (hon : deref (code.drop parse) = '\n') : errorSpan code parse = ⟨parse + 1, parse⟩ := by
  have hend : lineEnd code parse = parse := by
    cases hdrop : code.drop parse with
    | nil => rw [lineEnd, hdrop]; rfl
    | cons ch p =>
      rw [hdrop, deref_cons] at hon
      rw [lineEnd, hdrop, List.takeWhile_cons_of_neg (by simpa using hon)]
      rfl
  rw [errorSpan, endline_eq hnul, startlineLoop_newline hon, pastNewline, if_pos hon, hend]
  exact if_neg (by omega)

theorem errorSpan_iff (code : Text) (parse : Nat) (hnul : nul ∉ code)
    (hparse : parse ≤ code.length) :
    ShowsLine code parse (errorSpan code parse) ↔
      deref (code.drop parse) ≠ '\n' ∧ lineEnd code parse - lineStart code parse ≤ 100 := by
  have hstart := lineStart_le code parse
  have hend := le_lineEnd code parse
  by_cases hon : deref (code.drop parse) = '\n'
  · rw [errorSpan_newline hnul hon]
    refine ⟨fun h => ?_, fun h => absurd hon h.1⟩
    have hbehind : (parse : Int) + 1 ≤ parse := h.start_le
    omega
  · rw [errorSpan_line hnul hparse hon]
    constructor
    · intro h
      refine ⟨hon, ?_⟩
      by_contra hlong
      have hlimited : (lineEnd code parse : Int) - lineStart code parse ≤ 100 :=
        h.limited (by omega)
      omega
    · intro ⟨_, hshort⟩
      have hstart' : (lineStart code parse : Int) ≤ parse := by omega
      have hline : (lineStart code parse : Int) ≤ lineEnd code parse := by omega
      exact ⟨hstart', hline, newline_notMem_line code hparse, ⟨Int.le_refl _, Int.le_refl _⟩,
        fun _ => rfl, fun h => absurd hshort (by omega)⟩

/-- An error in the first line of `logs $`. -/
theorem errorSpan_iff_start :
    ShowsLine ['l', 'o', 'g', 's', ' ', '$', '\n'] 5
        (errorSpan ['l', 'o', 'g', 's', ' ', '$', '\n'] 5) ↔
      deref (['l', 'o', 'g', 's', ' ', '$', '\n'].drop 5) ≠ '\n' ∧
        lineEnd ['l', 'o', 'g', 's', ' ', '$', '\n'] 5 -
          lineStart ['l', 'o', 'g', 's', ' ', '$', '\n'] 5 ≤ 100 :=
  errorSpan_iff _ 5 (by decide) (by decide)

/-- A `$` at the end of a line is reported at the newline. -/
theorem errorSpan_newline_wrong :
    (∃ c, lexer (.new ['l', 'o', 'g', 's', ' ', '$', '\n']) = .error (.fail c) ∧
      c.parse = ['\n']) ∧
    errorSpan ['l', 'o', 'g', 's', ' ', '$', '\n'] 6 = ⟨7, 6⟩ ∧
    ¬ ∀ (code : Text) (parse : Nat), nul ∉ code → parse ≤ code.length →
      ShowsLine code parse (errorSpan code parse) := by
  refine ⟨⟨_, rfl, rfl⟩, rfl, fun h => ?_⟩
  have hline := h ['l', 'o', 'g', 's', ' ', '$', '\n'] 6 (by decide) (by decide)
  exact absurd hline.ordered (by decide)

theorem takeWhile_nul {p : Text} (hnul : nul ∉ p) : p.takeWhile (· ≠ nul) = p := by
  rw [List.takeWhile_eq_self_iff]
  exact fun ch hch => decide_eq_true fun h => hnul (h ▸ hch)

/-- Off a newline a line of up to 100 characters is written as it is, the caret under the
character of the error. -/
theorem errorPrint_line {code : Text} (hnul : nul ∉ code) {c : Asmchip32} {error : String}
    (herror : c.error = some error) (hparse : c.parse <:+ code) (hoff : deref c.parse ≠ '\n')
    {parse : Nat} (hoffset : parse = code.length - c.parse.length)
    (hshort : lineEnd code parse - lineStart code parse ≤ 100) :
    errorPrint code c =
      { stderr := "error: ".toList ++ error.toList ++ " at line:".toList ++
          (toString c.line).toList ++ ['\n'] ++
          Span.text code ⟨lineStart code parse, lineEnd code parse⟩ ++ ['\n']
        stdout := List.replicate (parse - lineStart code parse) ' ' ++ ['^', '\n'] } := by
  have hstart := lineStart_le code parse
  have hend := le_lineEnd code parse
  have hdrop : code.drop parse = c.parse := by
    rw [hoffset]
    exact (List.suffix_iff_eq_drop.mp hparse).symm
  have hspan := errorSpan_line hnul (show parse ≤ code.length by omega) (hdrop ▸ hoff)
  have hprinted : printed code ⟨lineStart code parse, lineEnd code parse⟩ =
      Span.text code ⟨lineStart code parse, lineEnd code parse⟩ := by
    have hprecision : ((lineEnd code parse : Int) - lineStart code parse).bmod (2 ^ 32) =
        lineEnd code parse - lineStart code parse :=
      Int.bmod_eq_of_le_mul_two (by omega) (by omega)
    have hrest := takeWhile_nul fun h => hnul (List.mem_of_mem_drop (i := lineStart code parse) h)
    simp only [printed, Span.text, hprecision, Int.toNat_natCast, hrest]
    exact if_neg (by omega)
  simp only [errorPrint, herror, ← hoffset, hspan, hprinted]
  rw [show ((parse : Int) - lineStart code parse).toNat = parse - lineStart code parse by omega]

/-- At a newline everything behind it is written, and the caret stands in the first column. -/
theorem errorPrint_newline {code : Text} (hnul : nul ∉ code) {c : Asmchip32} {error : String}
    (herror : c.error = some error) {rest : Text} (hparse : c.parse = '\n' :: rest)
    (hsuffix : c.parse <:+ code) :
    errorPrint code c =
      { stderr := "error: ".toList ++ error.toList ++ " at line:".toList ++
          (toString c.line).toList ++ ['\n'] ++ rest ++ ['\n']
        stdout := ['^', '\n'] } := by
  obtain ⟨parse, hoffset⟩ : ∃ parse, parse = code.length - c.parse.length := ⟨_, rfl⟩
  have hdrop : code.drop parse = c.parse := by
    rw [hoffset]
    exact (List.suffix_iff_eq_drop.mp hsuffix).symm
  have hon : deref (code.drop parse) = '\n' := by
    rw [hdrop, hparse]
    rfl
  have hspan := errorSpan_newline hnul hon
  have hrest : code.drop (parse + 1) = rest := by
    rw [← List.drop_drop, hdrop, hparse]
    rfl
  have hprecision : ((parse : Int) - (parse + 1)).bmod (2 ^ 32) = -1 := by
    rw [show (parse : Int) - (parse + 1) = -1 by omega]
    rfl
  have hprinted : printed code ⟨parse + 1, parse⟩ = rest := by
    simp only [printed, hprecision]
    rw [if_pos (by decide), show ((parse : Int) + 1).toNat = parse + 1 by omega, hrest,
      takeWhile_nul (hrest ▸ fun h => hnul (List.mem_of_mem_drop h))]
  simp only [errorPrint, herror, ← hoffset, hspan, hprinted]
  rw [show ((parse : Int) - (parse + 1)).toNat = 0 by omega]
  rfl

end Asm
