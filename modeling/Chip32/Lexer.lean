import Chip32.Asm

/-!
# The lexer of `c32asmlex.c`

Each function takes the part of the state it reads. Of a call that fails, what
remains is the error text and where `parse` stands; the entry of `vcmd` it was
filling in is given back.
-/
namespace Asm

open Runs

/-- The error of a lexer function. -/
structure Complaint where
  error : String
  parse : Text
  deriving DecidableEq, Repr

abbrev Lex := Except (Stop Complaint)

def complain {α : Type} (error : String) (parse : Text) : Lex α := .error (.fail ⟨error, parse⟩)

def isBlank (c : Char) : Bool := c = ' ' || c = '\t'

def isDigit (c : Char) : Bool := '0' ≤ c && c ≤ '9'

/-- The loop condition of `a32_token_name_next`. -/
def inName (c : Char) : Bool :=
  ('A' ≤ c && c ≤ 'Z') || ('a' ≤ c && c ≤ 'z') || isDigit c || c = '_'

/-- The loop condition of `a32_token_integer`. -/
def inInteger (c : Char) : Bool := isDigit c || c = '-'

/-- `a32_skip_space`. -/
def skipSpace (p : Text) : Text := p.dropWhile isBlank

/-- `a32_skip_comment`. -/
def skipComment (p : Text) : Text := p.dropWhile fun c => c ≠ nul && c ≠ '\n'

/-- `a32_endl`; `none` is its `0`. -/
def endl (p : Text) : Option Text :=
  match p with
  | [] => some []
  | '\x00' :: _ => some p
  | '\n' :: q => some q
  | ';' :: _ =>
    let q := skipComment p
    some (if deref q ≠ nul then q.tail else q)
  | _ => none

/-- The loop of `a32_token_quote`: where it stops. -/
def quoteLoop (quote : Char) : Text → Text
  | [] => []
  | [c] => if c = nul ∨ c = quote then [c] else []
  | c :: d :: p =>
    if c = nul ∨ c = quote then c :: d :: p
    else if c = '\\' ∧ d ≠ nul then quoteLoop quote p
    else quoteLoop quote (d :: p)

/-- `a32_token_quote`; the `end` of the token. -/
def tokenQuote (p : Text) : Lex Text :=
  let quote := deref p
  let q := quoteLoop quote p.tail
  if p.length = q.length ∨ deref q ≠ quote then
    complain ("missing terminator of " ++ String.singleton quote) p
  else .ok q.tail

/-- What `a32_token_name_next` and `a32_token_integer` do, with the check on the
first character and the condition of the loop. -/
def tokenWord (wrong : Char → Prop) [DecidablePred wrong] (error : String) (inside : Char → Bool)
    (p : Text) : Lex Text :=
  if wrong (deref p) then complain error p
  else
    let q := p.dropWhile inside
    if p.length = q.length then complain "invalid token" q else .ok q

/-- `a32_token_name_next`. -/
def tokenNameNext (p : Text) : Lex Text :=
  tokenWord (fun c => (c.toLower < 'a' ∨ c.toLower > 'z') ∧ c ≠ '_')
    "token can't start with a number" inName p

/-- `a32_token_integer`. -/
def tokenInteger (p : Text) : Lex Text :=
  tokenWord (fun c => (c.toLower < '0' ∨ c.toLower > '9') ∧ c ≠ '-') "wrong number" inInteger p

/-- The end of a token of one character. -/
def tokenOne (p : Text) : Lex Text := .ok p.tail

/-- A token written to `cmd->tokens[cmd->ntoken++]`. -/
def putToken (line : Nat) (type : Tktype) (next : Text → Lex Text) (p : Text) (cmd : Lexcmd) :
    Lex (Lexcmd × Text) :=
  if cmd.length < maxToken then do
    let q ← next p
    pure (cmd ++ [⟨line, type, p, q⟩], q)
  else .error (.fault .tokenBounds)

/-- The characters after which `a32_arg_next` calls itself. -/
def prefixType : Char → Option Tktype
  | '$' => some .ram
  | '&' => some .addr
  | '*' => some .ptr
  | '@' => some .data
  | _ => none

/-- `a32_arg_next`. -/
def argNext (line : Nat) : Text → Lexcmd → Lex (Lexcmd × Text)
  | [], _ => complain "unknow token" []
  | c :: p, cmd =>
    match prefixType c with
    | some type => do
      let (cmd, _) ← putToken line type tokenOne (c :: p) cmd
      argNext line p cmd
    | none =>
      if c = '?' then putToken line .auto tokenOne (c :: p) cmd
      else if c = '-' || isDigit c then putToken line .literalNum tokenInteger (c :: p) cmd
      else if c = '\'' then putToken line .literalChar tokenQuote (c :: p) cmd
      else if c = '"' then putToken line .literalStr tokenQuote (c :: p) cmd
      else if ('a' ≤ c && c ≤ 'z') || ('A' ≤ c && c ≤ 'Z') || c = '_' then
        putToken line .name tokenNameNext (c :: p) cmd
      else complain "unknow token" (c :: p)

/-- One turn of the loop over the labels and the command name. -/
def labelStep (line : Nat) (s : Lexcmd × Text) : Lex (Outcome (Lexcmd × Text)) :=
  if s.1.length < maxToken then do
    let q ← tokenNameNext s.2
    if deref q = ':' then
      pure (.next (s.1 ++ [⟨line, .label, s.2, q⟩], skipSpace q.tail))
    else if deref q ≠ ' ' ∧ deref q ≠ '\t' ∧ deref q ≠ '\n' ∧ deref q ≠ ';' then
      complain "wrong separator" q
    else pure (.stop (s.1 ++ [⟨line, .name, s.2, q⟩], q))
  else .error (.fault .tokenBounds)

/-- One turn of the loop over the arguments. -/
def argStep (line : Nat) (s : Lexcmd × Text) : Lex (Outcome (Lexcmd × Text)) :=
  let p := skipSpace s.2
  match endl p with
  | some q => pure (.stop (s.1, q))
  | none => do
    let (cmd, q) ← argNext line p s.1
    match endl q with
    | some r => pure (.stop (cmd, r))
    | none => if deref q ≠ ',' then complain "wrong seaprator" q else pure (.next (cmd, q.tail))

/-- The length of the source that is left, which every turn of either loop shortens. -/
def left (s : Lexcmd × Text) : Nat := s.2.length

/-- `a32_lexer_line`; `none` for a line without a command. -/
def lexerLine (line : Nat) (p : Text) : Lex (Option Lexcmd × Text) :=
  let p := skipSpace p
  match endl p with
  | some q => pure (none, q)
  | none => do
    let s ← loop (labelStep line) left ([], p)
    let (cmd, q) ← loop (argStep line) left s
    pure (some cmd, q)

/-- One turn of the loop of `a32_lexer`. -/
def lexerStep (c : Asmchip32) : Except (Stop Asmchip32) (Outcome Asmchip32) :=
  if deref c.parse = nul then .ok (.stop c)
  else match lexerLine c.line c.parse with
    | .error (.fault f) => .error (.fault f)
    | .error (.fail e) => .error (.fail { c with error := some e.error, parse := e.parse })
    | .ok (cmd, p) =>
      .ok (.next { c with vcmd := c.vcmd ++ cmd.toList, parse := p, line := c.line + 1 })

/-- `a32_lexer`. -/
def lexer (c : Asmchip32) : Except (Stop Asmchip32) Asmchip32 :=
  loop lexerStep (fun c => c.parse.length) c

end Asm
