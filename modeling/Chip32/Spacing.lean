import Chip32.ParserSpec
import Chip32.Positions

/-!
# Blanks and newlines

Where blanks may be put into a source, and whether its last newline may be left out.
-/

namespace Grammar

def Operands.squeeze : Operands → Operands
  | .done b => .done b
  | .last b a => .last b a
  | .more b a _ o => .more b a .none o.squeeze

theorem Operands.squeeze_opens {o : Operands} (h : o.Opens) : o.squeeze.Opens := by
  cases o <;> exact h

def Row.squeeze : Row → Row
  | .blank b => .blank b
  | .command indent labels name o opens =>
    .command indent labels name o.squeeze (Operands.squeeze_opens opens)

def Line.squeeze (l : Line) : Line := ⟨l.row.squeeze, .none, l.remark⟩

/-- The listing without the blanks in front of commas, comments and ends of lines. -/
def Listing.squeeze (s : Listing) : Listing := ⟨s.lines.map Line.squeeze, s.last.squeeze⟩

@[simp] theorem Operands.tokensOf_squeeze (o : Operands) :
    tokensOf o.squeeze.parts = tokensOf o.parts := by
  induction o with
  | done b | last b a => rfl
  | more b a g o ih => simp [Operands.squeeze, Operands.parts, ih]

@[simp] theorem Line.tokensOf_squeeze (l : Line) : tokensOf l.squeeze.parts = tokensOf l.parts := by
  obtain ⟨row, gap, remark⟩ := l
  cases row <;> simp [Line.squeeze, Line.parts, Row.squeeze, Row.parts]

theorem Line.tokens_squeeze (l : Line) : l.squeeze.tokens = l.tokens := by
  obtain ⟨row, gap, remark⟩ := l
  cases row with
  | blank b => rfl
  | command indent labels name o opens =>
    exact congrArg some (Line.tokensOf_squeeze ⟨.command indent labels name o opens, gap, remark⟩)

theorem Listing.tokens_squeeze (s : Listing) : s.squeeze.tokens = s.tokens := by
  have hlines : s.squeeze.lines ++ [s.squeeze.last] = (s.lines ++ [s.last]).map Line.squeeze := by
    simp [Listing.squeeze]
  rw [Listing.tokens, hlines, List.filterMap_map, Listing.tokens]
  exact congrArg (List.filterMap · _) (funext Line.tokens_squeeze)

theorem Line.endsInName_squeeze {l : Line} (h : l.EndsInName) : l.squeeze.EndsInName := by
  obtain ⟨row, gap, remark⟩ := l
  cases row with
  | blank b => exact h
  | command indent labels name o opens =>
    cases o with
    | done b =>
      obtain ⟨hb, htrail⟩ := h
      exact ⟨hb, (List.append_eq_nil_iff.mp htrail).2⟩
    | last b a | more b a g o => exact h

/-- If the squeezed listing is proper, only gaps can stand in the way. -/
theorem Listing.proper_of_squeeze {s : Listing} (h : s.squeeze.Proper) :
    s.Proper ↔ ∀ l ∈ s.lines ++ [s.last], l.Tight := by
  have hlines : s.squeeze.lines ++ [s.squeeze.last] = (s.lines ++ [s.last]).map Line.squeeze := by
    simp [Listing.squeeze]
  refine ⟨Listing.Proper.tight, fun htight => ⟨htight, fun l hl => ?_, fun hends => ?_⟩⟩
  · have hfits := h.fits l.squeeze (by rw [hlines]; exact List.mem_map_of_mem hl)
    rwa [Line.Fits, Line.tokensOf_squeeze] at hfits
  · exact h.ends (Line.endsInName_squeeze hends)

theorem Operands.squeeze_eq {o : Operands} (h : o.Tight) : o.squeeze = o := by
  induction o with
  | done b | last b a => rfl
  | more b a g o ih =>
    rw [Operands.squeeze, ih h.2]
    congr 1
    exact (Subtype.ext h.1).symm

theorem Line.squeeze_eq {l : Line} (h : l.Tight) (hg : l.gap = .none) : l.squeeze = l := by
  obtain ⟨row, gap, remark⟩ := l
  obtain rfl : gap = .none := hg
  cases row with
  | blank b => rfl
  | command indent labels name o opens =>
    simp only [Line.squeeze, Row.squeeze, Operands.squeeze_eq h.1]

theorem Listing.squeeze_eq {s : Listing} (h : ∀ l ∈ s.lines ++ [s.last], l.Tight ∧ l.gap = .none) :
    s.squeeze = s := by
  obtain ⟨lines, last⟩ := s
  have hlines : lines.map Line.squeeze = lines := by
    refine (List.map_congr_left fun l hl => ?_).trans (List.map_id lines)
    obtain ⟨htight, hgap⟩ := h l (by simp [hl])
    exact Line.squeeze_eq htight hgap
  obtain ⟨htight, hgap⟩ := h last (by simp)
  rw [Listing.squeeze, hlines, Line.squeeze_eq htight hgap]

/-- A source into which blanks are put: its gaps, none of them where no comment, no
newline and no comma follows. -/
structure Widened where
  listing : Listing
  stops : listing.last.remark = none → listing.last.gap = .none

/-- The source without the blanks. -/
def Widened.old (w : Widened) : List Char := w.listing.squeeze.text

/-- The source with them. -/
def Widened.new (w : Widened) : List Char := w.listing.text

/-- No blank is put directly behind an argument. -/
def Widened.Clear (w : Widened) : Prop := ∀ l ∈ w.listing.lines ++ [w.listing.last], l.Tight

end Grammar

namespace Asm

open Runs Grammar

/-- Blanks put into a source that is read leave it with the same commands exactly if
none is put directly behind an argument. -/
theorem blanks_clear_iff {code : Text} {c : Asmchip32} (hn : nul ∉ code)
    (h : lexer (.new code) = .ok c) : (∃ w : Widened, w.old = code) ∧
      ∀ w : Widened, w.old = code →
        ((∃ d, lexer (.new w.new) = .ok d ∧ d.vcmd.map shapes = c.vcmd.map shapes) ↔ w.Clear) := by
  constructor
  · obtain ⟨s, hs, hproper, hgaps⟩ := exists_listing hn h
    have hsqueeze := Listing.squeeze_eq fun l hl => ⟨hproper.tight l hl, hgaps l hl⟩
    refine ⟨⟨s, fun _ => hgaps _ (by simp)⟩, ?_⟩
    rw [Widened.old, hsqueeze, hs]
  · rintro w rfl
    have hclear := Listing.proper_of_squeeze ((lexer_listing w.listing.squeeze).mp ⟨c, h⟩)
    rw [Widened.Clear, ← hclear, ← lexer_listing]
    refine exists_congr fun d => and_iff_left_of_imp fun hd => ?_
    rw [listing_shapes hd, listing_shapes h, Listing.tokens_squeeze]

/-- `nop;c` and blanks in front of the comment. -/
def nopWidened : Widened where
  listing := ⟨[⟨.command .none [] nameNop (.done .none) trivial,
    .one, some ⟨['c'], by simp [nul]⟩⟩], emptyLine⟩
  stops _ := rfl

theorem blanks_clear_nop : ∃ d, lexer (.new "nop ;c\n".toList) = .ok d ∧
    d.vcmd.map shapes = (final (lexer (.new "nop;c\n".toList))).vcmd.map shapes :=
  ((blanks_clear_iff (by decide) (ok_final (by decide +kernel))).2 nopWidened (by decide)).mpr
    fun l hl => by
      rcases List.mem_cons.mp hl with rfl | hl
      · exact ⟨trivial, nofun⟩
      · rw [List.mem_singleton.mp hl]
        trivial

/-- `inc $1;c` and a blank in front of the comment. -/
def incWidened : Widened where
  listing := ⟨[⟨.command .none [] incX.name
    (.last .one ⟨[.ram], .number ⟨'1', [], .inl rfl, nofun⟩⟩) Space.one_ne_nil,
    .one, some ⟨['c'], by simp [nul]⟩⟩], emptyLine⟩
  stops _ := rfl

/-- The comment is separated from the argument, and the source is rejected. -/
theorem blank_rejected : incWidened.old = "inc $1;c\n".toList ∧
    incWidened.new = "inc $1 ;c\n".toList ∧
    (lexer (.new incWidened.old)).toOption.isSome ∧ (lexer (.new incWidened.new)).toOption = none := by
  decide +kernel

/-- What stands at the end of a part is no newline. -/
theorem linePart_last {p : Part} (h : LinePart p) : p.text.getLast? ≠ some '\n' := by
  have hword : ∀ {first next : Char → Prop} (w : Word first next), ¬ first '\n' → ¬ next '\n' →
      w.text.getLast? ≠ some '\n' := by
    intro first next w hfirst hnext hlast
    rcases List.mem_cons.mp (List.mem_of_getLast? hlast) with hmem | hmem
    · exact hfirst (hmem ▸ w.head_ok)
    · exact hnext (w.tail_ok _ hmem)
  have hident : ∀ i : Ident, i.text.getLast? ≠ some '\n' := fun i => hword i (by decide) (by decide)
  have hfiller : ∀ t, LinePart (.filler t) → t.getLast? ≠ some '\n' := fun t ht hlast =>
    unbroken_part ht (List.mem_of_getLast? hlast)
  cases h with
  | space b => exact hfiller _ (.space b)
  | colon b => exact hfiller _ (.colon b)
  | comma g => exact hfiller _ (.comma g)
  | trail g remark => exact hfiller _ (.trail g remark)
  | label i => exact hident i
  | sigil s => cases s <;> decide
  | atom a =>
    cases a with
    | auto => decide
    | number n => exact hword n (by decide) (by decide)
    | name i => exact hident i
    | char b | str b =>
      rw [Part.text, Atom.text, Body.quoted, ← List.cons_append, List.getLast?_concat]
      decide

theorem line_last (l : Line) : l.text.getLast? ≠ some '\n' := by
  have hspell : ∀ ps : List Part, (∀ p ∈ ps, LinePart p) → (spell ps).getLast? ≠ some '\n' := by
    intro ps hps
    induction ps with
    | nil => exact nofun
    | cons p ps ih =>
      obtain ⟨hp, hps⟩ := List.forall_mem_cons.mp hps
      have hcons : spell (p :: ps) = p.text ++ spell ps := by cases p <;> rfl
      rw [hcons, List.getLast?_append]
      intro h
      rcases Option.or_eq_some_iff.mp h with h | ⟨_, h⟩
      · exact ih hps h
      · exact linePart_last hp h
  exact hspell _ l.linePart

/-- The listing with a newline behind its last line. -/
def withNewline (s : Listing) : Listing := ⟨s.lines ++ [s.last], emptyLine⟩

theorem text_withNewline (s : Listing) : (withNewline s).text = s.text ++ ['\n'] := by
  simp [withNewline, Listing.text, Line.text, Line.parts, Row.parts, Line.trail, emptyLine, Space.none,
    remarkText]

theorem tokens_withNewline (s : Listing) : (withNewline s).tokens = s.tokens := by
  have hempty : [emptyLine].filterMap Line.tokens = [] := rfl
  rw [Listing.tokens, withNewline, List.filterMap_append, hempty, List.append_nil]
  rfl

theorem proper_withNewline {s : Listing} :
    (withNewline s).Proper ↔ ∀ l ∈ s.lines ++ [s.last], l.Tight ∧ l.Fits := by
  have hempty : emptyLine.Tight ∧ emptyLine.Fits ∧ ¬ emptyLine.EndsInName :=
    ⟨trivial, Nat.zero_le _, id⟩
  constructor
  · intro h l hl
    exact ⟨h.tight l (List.mem_append_left _ hl), h.fits l (List.mem_append_left _ hl)⟩
  · intro h
    refine ⟨List.forall_mem_append.mpr ⟨fun l hl => (h l hl).1, ?_⟩,
      List.forall_mem_append.mpr ⟨fun l hl => (h l hl).2, ?_⟩, hempty.2.2⟩
    · exact List.forall_mem_singleton.mpr hempty.1
    · exact List.forall_mem_singleton.mpr hempty.2.1

/-- Only a last line that ends in its command name needs the newline. -/
theorem proper_iff_withNewline {s : Listing} : s.Proper ↔ (withNewline s).Proper ∧ ¬ s.last.EndsInName := by
  rw [proper_withNewline]
  constructor
  · rintro ⟨htight, hfits, hends⟩
    exact ⟨fun l hl => ⟨htight l hl, hfits l hl⟩, hends⟩
  · rintro ⟨h, hends⟩
    exact ⟨fun l hl => (h l hl).1, fun l hl => (h l hl).2, hends⟩

/-- A source whose newline is read is a listing with a newline behind it. -/
theorem exists_withNewline {code : Text} {d : Asmchip32} (hn : nul ∉ code)
    (h : lexer (.new (code ++ ['\n'])) = .ok d) : ∃ s : Listing, s.text = code ∧ (withNewline s).Proper := by
  have hn' : nul ∉ code ++ ['\n'] := by
    rw [List.mem_append]
    exact fun h => h.elim hn (by decide)
  obtain ⟨⟨lines, last⟩, htext, hproper, _⟩ := exists_listing hn' h
  have hlast : last.text = [] := by
    by_contra hne
    have hend := congrArg List.getLast? htext
    rw [Listing.text, List.getLast?_append, List.getLast?_concat] at hend
    rcases Option.or_eq_some_iff.mp hend with hend | ⟨hnone, _⟩
    · exact line_last last hend
    · exact hne (List.getLast?_eq_none_iff.mp hnone)
  simp only [Listing.text, hlast, List.append_nil] at htext
  rcases lines.eq_nil_or_concat with rfl | ⟨ls, l, rfl⟩
  · simp at htext
  · rw [List.concat_eq_append] at htext hproper
    refine ⟨⟨ls, l⟩, ?_, proper_withNewline.mpr fun x hx => ?_⟩
    · rw [List.flatMap_append, List.flatMap_singleton, ← List.append_assoc] at htext
      exact List.append_cancel_right htext
    · exact ⟨hproper.tight x (List.mem_append_left _ hx), hproper.fits x (List.mem_append_left _ hx)⟩

/-- The source is accepted with a newline behind it exactly if it is without, and then
as the same commands. -/
def NewlineOptional (code : Text) : Prop :=
  ((∃ c, lexer (.new code) = .ok c) ↔ ∃ d, lexer (.new (code ++ ['\n'])) = .ok d) ∧
    ∀ c d, lexer (.new code) = .ok c → lexer (.new (code ++ ['\n'])) = .ok d →
      c.vcmd.map shapes = d.vcmd.map shapes

/-- The lexer comes to the last line, and that one ends in its command name. -/
def StopsAtName (code : Text) : Prop :=
  ∃ s : Listing, s.text = code ∧ (∀ l ∈ s.lines ++ [s.last], l.Tight ∧ l.Fits) ∧ s.last.EndsInName

/-- The last newline may be left out exactly if no command name stands in front of it. -/
theorem newline_optional_iff {code : Text} (hn : nul ∉ code) :
    NewlineOptional code ↔ ¬ StopsAtName code := by
  constructor
  · rintro ⟨hiff, _⟩ ⟨s, rfl, hlines, hends⟩
    have hclosed := (lexer_listing (withNewline s)).mpr (proper_withNewline.mpr hlines)
    rw [text_withNewline] at hclosed
    exact ((lexer_listing s).mp (hiff.mpr hclosed)).ends hends
  · intro hstops
    refine ⟨⟨?_, ?_⟩, ?_⟩
    · rintro ⟨c, hc⟩
      obtain ⟨s, rfl, hproper, _⟩ := exists_listing hn hc
      rw [← text_withNewline]
      exact (lexer_listing (withNewline s)).mpr (proper_iff_withNewline.mp hproper).1
    · rintro ⟨d, hd⟩
      obtain ⟨s, rfl, hproper⟩ := exists_withNewline hn hd
      refine (lexer_listing s).mpr (proper_iff_withNewline.mpr ⟨hproper, fun hends => ?_⟩)
      exact hstops ⟨s, rfl, proper_withNewline.mp hproper, hends⟩
    · intro c d hc hd
      obtain ⟨s, rfl, _⟩ := exists_listing hn hc
      rw [← text_withNewline] at hd
      rw [listing_shapes hc, listing_shapes hd, tokens_withNewline]

/-- A source that ends in an argument. -/
theorem newline_optional_arg : NewlineOptional "jmp 1".toList := by
  refine (newline_optional_iff (by decide)).mpr ?_
  rintro ⟨s, hs, _, hends⟩
  have hread : ∃ c, lexer (.new s.text) = .ok c := by
    rw [hs]
    exact ⟨_, ok_final (by decide +kernel)⟩
  exact ((lexer_listing s).mp hread).ends hends

/-- `nop` is accepted with a newline only. -/
theorem newline_required : ¬ NewlineOptional "nop".toList := by
  rintro ⟨hiff, _⟩
  obtain ⟨c, hc⟩ := hiff.mpr ⟨_, ok_final (by decide +kernel)⟩
  have hnone : (lexer (.new "nop".toList)).toOption = none := by decide +kernel
  rw [hc] at hnone
  cases hnone

end Asm
