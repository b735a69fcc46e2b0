import Chip32.Grammar

/-!
# The text of a source

The lines of a source with every blank and every comment in its place, without a lexer.
Blanks may also stand where a lexer does not have to take them: behind an argument.
-/
namespace Grammar

open Asm

/-- A token or what stands between two. -/
inductive Part where
  | filler (t : List Char)
  | token (type : Tktype) (t : List Char)

def Part.text : Part → List Char
  | .filler t => t
  | .token _ t => t

def spell (ps : List Part) : List Char := ps.flatMap Part.text

/-- The types and the texts of the tokens. -/
def tokensOf (ps : List Part) : List (Tktype × List Char) :=
  ps.filterMap fun | .filler _ => none | .token type t => some (type, t)

section Parts

variable (ps qs : List Part) (t : List Char) (type : Tktype)

@[simp] theorem spell_nil : spell [] = [] := rfl
@[simp] theorem spell_filler : spell (.filler t :: ps) = t ++ spell ps := rfl
@[simp] theorem spell_token : spell (.token type t :: ps) = t ++ spell ps := rfl
@[simp] theorem spell_append : spell (ps ++ qs) = spell ps ++ spell qs := List.flatMap_append

@[simp] theorem tokensOf_nil : tokensOf [] = [] := rfl
@[simp] theorem tokensOf_filler : tokensOf (.filler t :: ps) = tokensOf ps := rfl
@[simp] theorem tokensOf_token : tokensOf (.token type t :: ps) = (type, t) :: tokensOf ps := rfl
@[simp] theorem tokensOf_append : tokensOf (ps ++ qs) = tokensOf ps ++ tokensOf qs :=
  List.filterMap_append

end Parts

/-- Any blanks. -/
abbrev Space := { b : List Char // Blanks b }

/-- What may stand in a comment. -/
abbrev Remark := { t : List Char // ∀ c ∈ t, c ≠ '\n' ∧ c ≠ nul }

def Space.none : Space := ⟨[], nofun⟩

def Space.one : Space := ⟨[' '], by simp [Blanks, Blank]⟩

theorem Space.one_ne_nil : Space.one.1 ≠ [] := List.cons_ne_nil _ _

def Arg.parts (a : Arg) : List Part :=
  a.sigils.map (fun s => .token s.type [s.char]) ++ [.token a.atom.type a.atom.text]

/-- What stands behind a command name: arguments behind blanks, with a comma behind each
one but perhaps the last, and blanks in front of a comma. -/
inductive Operands where
  | done (b : Space)
  | last (b : Space) (a : Arg)
  | more (b : Space) (a : Arg) (g : Space) (o : Operands)

def Operands.parts : Operands → List Part
  | .done b => [.filler b.1]
  | .last b a => .filler b.1 :: a.parts
  | .more b a g o => .filler b.1 :: (a.parts ++ .filler (g.1 ++ [',']) :: o.parts)

/-- A blank stands between the command name and the first argument. -/
def Operands.Opens : Operands → Prop
  | .done _ => True
  | .last b _ | .more b _ _ _ => b.1 ≠ []

/-- The line ends directly behind an argument. -/
def Operands.EndsInArg : Operands → Prop
  | .done _ => False
  | .last _ _ => True
  | .more _ _ _ o => o.EndsInArg

/-- No blank stands in front of a comma. -/
def Operands.Tight : Operands → Prop
  | .done _ | .last _ _ => True
  | .more _ _ g o => g.1 = [] ∧ o.Tight

def labelParts (labels : List (Ident × Space)) : List Part :=
  labels.flatMap fun l => [.token .label l.1.text, .filler (':' :: l.2.1)]

/-- A line up to its trailing blanks. -/
inductive Row where
  | blank (b : Space)
  | command (indent : Space) (labels : List (Ident × Space)) (name : Ident) (o : Operands)
      (opens : o.Opens)

def Row.parts : Row → List Part
  | .blank b => [.filler b.1]
  | .command indent labels name o _ =>
    .filler indent.1 :: (labelParts labels ++ .token .name name.text :: o.parts)

/-- A line without the newline: what it consists of, blanks, and perhaps a comment. -/
structure Line where
  row : Row
  gap : Space
  remark : Option Remark

/-- A comment and its semicolon. -/
def remarkText : Option Remark → List Char
  | none => []
  | some t => ';' :: t.1

/-- Blanks and comment. -/
def Line.trail (l : Line) : List Char := l.gap.1 ++ remarkText l.remark

def Line.parts (l : Line) : List Part := l.row.parts ++ [.filler l.trail]

def Line.text (l : Line) : List Char := spell l.parts

/-- The tokens of a line with a command. -/
def Line.tokens (l : Line) : Option (List (Tktype × List Char)) :=
  match l.row with
  | .blank _ => none
  | .command .. => some (tokensOf l.parts)

/-- No blank stands directly behind an argument. -/
def Line.Tight (l : Line) : Prop :=
  match l.row with
  | .blank _ => True
  | .command _ _ _ o _ => o.Tight ∧ (o.EndsInArg → l.gap.1 = [])

/-- The tokens fit a command. -/
def Line.Fits (l : Line) : Prop := (tokensOf l.parts).length ≤ maxToken

/-- Nothing stands behind the command name. -/
def Line.EndsInName (l : Line) : Prop :=
  match l.row with
  | .command _ _ _ (.done b) _ => b.1 = [] ∧ l.trail = []
  | _ => False

/-- What the parts of a line are. -/
inductive LinePart : Part → Prop
  | space (b : Space) : LinePart (.filler b.1)
  | colon (b : Space) : LinePart (.filler (':' :: b.1))
  | comma (g : Space) : LinePart (.filler (g.1 ++ [',']))
  | trail (g : Space) (remark : Option Remark) : LinePart (.filler (g.1 ++ remarkText remark))
  | label (i : Ident) : LinePart (.token .label i.text)
  | sigil (s : Sigil) : LinePart (.token s.type [s.char])
  | atom (a : Atom) : LinePart (.token a.type a.text)

theorem Arg.linePart (a : Arg) : ∀ p ∈ a.parts, LinePart p := by
  intro p hp
  rcases List.mem_append.mp hp with hp | hp
  · obtain ⟨s, _, rfl⟩ := List.mem_map.mp hp
    exact .sigil s
  · rw [List.mem_singleton.mp hp]
    exact .atom a.atom

theorem Operands.linePart (o : Operands) : ∀ p ∈ o.parts, LinePart p := by
  induction o with
  | done b => exact List.forall_mem_cons.mpr ⟨.space b, nofun⟩
  | last b a => exact List.forall_mem_cons.mpr ⟨.space b, a.linePart⟩
  | more b a g o ih =>
    refine List.forall_mem_cons.mpr ⟨.space b, List.forall_mem_append.mpr ⟨a.linePart, ?_⟩⟩
    exact List.forall_mem_cons.mpr ⟨.comma g, ih⟩

theorem labels_linePart (labels : List (Ident × Space)) : ∀ p ∈ labelParts labels, LinePart p := by
  intro p hp
  obtain ⟨l, _, hp⟩ := List.mem_flatMap.mp hp
  rcases List.mem_cons.mp hp with rfl | hp
  · exact .label l.1
  · rw [List.mem_singleton.mp hp]
    exact .colon l.2

theorem Line.linePart (l : Line) : ∀ p ∈ l.parts, LinePart p := by
  refine List.forall_mem_append.mpr ⟨?_, List.forall_mem_cons.mpr ⟨.trail l.gap l.remark, nofun⟩⟩
  cases l.row with
  | blank b => exact List.forall_mem_cons.mpr ⟨.space b, nofun⟩
  | command indent labels name o opens =>
    refine List.forall_mem_cons.mpr ⟨.space indent, ?_⟩
    refine List.forall_mem_append.mpr ⟨labels_linePart labels, ?_⟩
    exact List.forall_mem_cons.mpr ⟨.atom (.name name), o.linePart⟩

/-- Lines that end in a newline, and a last one that does not. -/
structure Listing where
  lines : List Line
  last : Line

def Listing.text (s : Listing) : List Char :=
  s.lines.flatMap (fun l => l.text ++ ['\n']) ++ s.last.text

/-- The tokens of the commands, line by line. -/
def Listing.tokens (s : Listing) : List (List (Tktype × List Char)) :=
  (s.lines ++ [s.last]).filterMap Line.tokens

/-- Every line is tight and fits, and the last one does not end in its command name. -/
structure Listing.Proper (s : Listing) : Prop where
  tight : ∀ l ∈ s.lines ++ [s.last], l.Tight
  fits : ∀ l ∈ s.lines ++ [s.last], l.Fits
  ends : ¬ s.last.EndsInName

end Grammar
