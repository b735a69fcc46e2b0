import Chip32.Asm

/-!
# The line grammar of the assembler

What a command is and how it may be laid out in a source, without a lexer.
-/
namespace Grammar

open Asm

/-- A character of one kind and any number of another. -/
structure Word (first next : Char → Prop) where
  head : Char
  tail : List Char
  head_ok : first head
  tail_ok : ∀ c ∈ tail, next c

def Word.text {first next : Char → Prop} (w : Word first next) : List Char := w.head :: w.tail

/-- `[A-Za-z_][A-Za-z0-9_]*`. -/
abbrev Ident := Word (fun c => c.isAlpha ∨ c = '_') (fun c => c.isAlphanum ∨ c = '_')

/-- A run of digits and `-`. -/
abbrev Number := Word (fun c => c.isDigit ∨ c = '-') (fun c => c.isDigit ∨ c = '-')

/-- A piece of a quoted body; the quote itself only stands escaped. -/
inductive Piece (quote : Char) where
  | plain (c : Char) (h : c ≠ quote ∧ c ≠ '\\' ∧ c ≠ nul)
  | escape (c : Char) (h : c ≠ nul)

def Piece.text {quote : Char} : Piece quote → List Char
  | .plain c _ => [c]
  | .escape c _ => ['\\', c]

abbrev Body (quote : Char) := List (Piece quote)

def Body.text {quote : Char} (b : Body quote) : List Char := b.flatMap Piece.text

@[simp] theorem Body.text_nil {quote : Char} : Body.text ([] : Body quote) = [] := rfl
@[simp] theorem Body.text_cons {quote : Char} (x : Piece quote) (b : Body quote) :
    Body.text (x :: b) = x.text ++ Body.text b := rfl

/-- A body between its quotes. -/
def Body.quoted {quote : Char} (b : Body quote) : List Char := quote :: (b.text ++ [quote])

inductive Atom where
  | auto
  | number (n : Number)
  | name (i : Ident)
  | char (b : Body '\'')
  | str (b : Body '"')

def Atom.type : Atom → Tktype
  | .auto => .auto
  | .number _ => .literalNum
  | .name _ => .name
  | .char _ => .literalChar
  | .str _ => .literalStr

def Atom.text : Atom → List Char
  | .auto => ['?']
  | .number n => n.text
  | .name i => i.text
  | .char b => b.quoted
  | .str b => b.quoted

/-- The characters that may stand before an atom. -/
inductive Sigil where
  | ram | addr | ptr | data

def Sigil.type : Sigil → Tktype
  | .ram => .ram
  | .addr => .addr
  | .ptr => .ptr
  | .data => .data

def Sigil.char : Sigil → Char
  | .ram => '$'
  | .addr => '&'
  | .ptr => '*'
  | .data => '@'

structure Arg where
  sigils : List Sigil
  atom : Atom

def Arg.tokens (a : Arg) : List (Tktype × List Char) :=
  a.sigils.map (fun s => (s.type, [s.char])) ++ [(a.atom.type, a.atom.text)]

def Arg.text (a : Arg) : List Char := a.sigils.map Sigil.char ++ a.atom.text

/-- A well-formed command. -/
structure Cmd where
  labels : List Ident
  name : Ident
  args : List Arg
  fits : labels.length + 1 + (args.flatMap Arg.tokens).length ≤ maxToken

/-- The types and the texts of its tokens. -/
def Cmd.tokens (c : Cmd) : List (Tktype × List Char) :=
  c.labels.map (fun i => (.label, i.text)) ++ (.name, c.name.text) :: c.args.flatMap Arg.tokens

def Blank (c : Char) : Prop := c = ' ' ∨ c = '\t'

def Blanks (b : List Char) : Prop := ∀ c ∈ b, Blank c

/-- The end of a line, with or without a comment. -/
inductive Eol : List Char → Prop
  | newline : Eol ['\n']
  | comment (t : List Char) (h : ∀ c ∈ t, c ≠ '\n' ∧ c ≠ nul) : Eol (';' :: (t ++ ['\n']))

inductive Labels : List Ident → List Char → Prop
  | nil : Labels [] []
  | cons (i : Ident) {is : List Ident} {b t : List Char} (hb : Blanks b) (ht : Labels is t) :
      Labels (i :: is) (i.text ++ ':' :: (b ++ t))

/-- Arguments, each after any blanks, with a comma between two of them. -/
inductive Args : List Arg → List Char → Prop
  | last (a : Arg) {b : List Char} (hb : Blanks b) : Args [a] (b ++ a.text)
  | cons (a : Arg) {as : List Arg} {b t : List Char} (hb : Blanks b) (ht : Args as t) :
      Args (a :: as) (b ++ (a.text ++ ',' :: t))

/-- What follows the command name. -/
inductive Rest : List Arg → List Char → Prop
  | none {b : List Char} (hb : Blanks b) : Rest [] b
  | args {as : List Arg} {c : Char} {t : List Char} (hc : Blank c) (ht : Args as t) :
      Rest as (c :: t)

/-- A source: lines with a command and lines without one. -/
inductive Layout : List Cmd → List Char → Prop
  | nil : Layout [] []
  | blank {cmds : List Cmd} {b e t : List Char} (hb : Blanks b) (he : Eol e) (ht : Layout cmds t) :
      Layout cmds (b ++ (e ++ t))
  | cmd (c : Cmd) {cmds : List Cmd} {b l r e t : List Char} (hb : Blanks b)
      (hl : Labels c.labels l) (hr : Rest c.args r) (he : Eol e) (ht : Layout cmds t) :
      Layout (c :: cmds) (b ++ (l ++ (c.name.text ++ (r ++ (e ++ t)))))

end Grammar
