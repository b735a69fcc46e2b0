import Chip32.Places

/-!
# The lexer in its buffer

The lexer once more, on a buffer that ends with the terminating NUL: a pointer is what
is left of the buffer, and behind the NUL there is nothing that can be read.
-/
namespace Asm

open Runs Grammar

namespace Checked

/-- What may go wrong; `none` is a read behind the end of the buffer. -/
abbrev Lex := Except (Option (Stop Complaint))

def complain {α : Type} (error : String) (parse : Text) : Lex α :=
  .error (some (.fail ⟨error, parse⟩))

/-- `*p`. -/
def read {ε : Type} : Text → Except (Option ε) Char
  | [] => .error none
  | c :: _ => .ok c

/-- The loop that goes on while the character at the pointer is of one kind. -/
def skip (inside : Char → Bool) : Text → Lex Text
  | [] => .error none
  | c :: p => if inside c then skip inside p else .ok (c :: p)

/-- `a32_skip_space`. -/
def skipSpace : Text → Lex Text := skip isBlank

/-- `a32_skip_comment`. -/
def skipComment : Text → Lex Text := skip fun c => c ≠ nul && c ≠ '\n'

/-- `a32_endl`. -/
def endl (p : Text) : Lex (Option Text) := do
  match ← read p with
  | '\x00' => pure (some p)
  | '\n' => pure (some p.tail)
  | ';' =>
    let q ← skipComment p
    let c ← read q
    pure (some (if c ≠ nul then q.tail else q))
  | _ => pure none

/-- The loop of `a32_token_quote`. The character behind a backslash is read too. -/
def quoteLoop (quote : Char) : Text → Lex Text
  | [] => .error none
  | [c] => if c = nul ∨ c = quote then .ok [c] else .error none
  | c :: d :: p =>
    if c = nul ∨ c = quote then .ok (c :: d :: p)
    else if c = '\\' ∧ d ≠ nul then quoteLoop quote p
    else quoteLoop quote (d :: p)

/-- `a32_token_quote`. -/
def tokenQuote (p : Text) : Lex Text := do
  let quote ← read p
  let q ← quoteLoop quote p.tail
  let c ← read q
  if p.length = q.length ∨ c ≠ quote then
    complain ("missing terminator of " ++ String.singleton quote) p
  else pure q.tail

def tokenWord (wrong : Char → Prop) [DecidablePred wrong] (error : String) (inside : Char → Bool)
    (p : Text) : Lex Text := do
  let c ← read p
  if wrong c then complain error p
  else
    let q ← skip inside p
    if p.length = q.length then complain "invalid token" q else pure q

/-- `a32_token_name_next`. -/
def tokenNameNext (p : Text) : Lex Text :=
  tokenWord (fun c => (c.toLower < 'a' ∨ c.toLower > 'z') ∧ c ≠ '_')
    "token can't start with a number" inName p

/-- `a32_token_integer`. -/
def tokenInteger (p : Text) : Lex Text :=
  tokenWord (fun c => (c.toLower < '0' ∨ c.toLower > '9') ∧ c ≠ '-') "wrong number" inInteger p

def tokenOne (p : Text) : Lex Text := .ok p.tail

def putToken (line : Nat) (type : Tktype) (next : Text → Lex Text) (p : Text) (cmd : Lexcmd) :
    Lex (Lexcmd × Text) :=
  if cmd.length < maxToken then do
    let q ← next p
    pure (cmd ++ [⟨line, type, p, q⟩], q)
  else .error (some (.fault .tokenBounds))

/-- `a32_arg_next`. -/
def argNext (line : Nat) : Text → Lexcmd → Lex (Lexcmd × Text)
  | [], _ => .error none
  | c :: p, cmd =>
    match prefixType c with
    | some type => do
      let (cmd, _) ← putToken line type tokenOne (c :: p) cmd
      argNext line p cmd
    | none =>
      if c = '?' then putToken line .auto tokenOne (c :: p) cmd
      else if c = '-' || isDigit c then putToken line .literalNum tokenInteger (c :: p) cmd
      else if c = '\'' then putToken line .literalChar tokenQuote (c :: p) cmd
      else if c = '"' then putToken line .literalStr tokenQuote (c :: p) cmd
      else if ('a' ≤ c && c ≤ 'z') || ('A' ≤ c && c ≤ 'Z') || c = '_' then
        putToken line .name tokenNameNext (c :: p) cmd
      else complain "unknow token" (c :: p)

/-- One turn of the loop over the labels and the command name. -/
def labelStep (line : Nat) (s : Lexcmd × Text) : Lex (Outcome (Lexcmd × Text)) :=
  if s.1.length < maxToken then do
    let q ← tokenNameNext s.2
    let c ← read q
    if c = ':' then do
      let r ← skipSpace q.tail
      pure (.next (s.1 ++ [⟨line, .label, s.2, q⟩], r))
    else if c ≠ ' ' ∧ c ≠ '\t' ∧ c ≠ '\n' ∧ c ≠ ';' then complain "wrong separator" q
    else pure (.stop (s.1 ++ [⟨line, .name, s.2, q⟩], q))
  else .error (some (.fault .tokenBounds))

/-- One turn of the loop over the arguments. -/
def argStep (line : Nat) (s : Lexcmd × Text) : Lex (Outcome (Lexcmd × Text)) := do
  let p ← skipSpace s.2
  match ← endl p with
  | some q => pure (.stop (s.1, q))
  | none => do
    let (cmd, q) ← argNext line p s.1
    match ← endl q with
    | some r => pure (.stop (cmd, r))
    | none => do
      let c ← read q
      if c ≠ ',' then complain "wrong seaprator" q else pure (.next (cmd, q.tail))

/-- `a32_lexer_line`. -/
def lexerLine (line : Nat) (p : Text) : Lex (Option Lexcmd × Text) := do
  let p ← skipSpace p
  match ← endl p with
  | some q => pure (none, q)
  | none => do
    let s ← loop (labelStep line) left ([], p)
    let (cmd, q) ← loop (argStep line) left s
    pure (some cmd, q)

/-- One turn of the loop of `a32_lexer`. -/
def lexerStep (c : Asmchip32) : Except (Option (Stop Asmchip32)) (Outcome Asmchip32) := do
  let x ← read c.parse
  if x = nul then pure (.stop c)
  else match lexerLine c.line c.parse with
    | .error none => .error none
    | .error (some (.fault f)) => .error (some (.fault f))
    | .error (some (.fail e)) =>
      .error (some (.fail { c with error := some e.error, parse := e.parse }))
    | .ok (cmd, p) =>
      .ok (.next { c with vcmd := c.vcmd ++ cmd.toList, parse := p, line := c.line + 1 })

/-- `a32_lexer`. -/
def lexer (c : Asmchip32) : Except (Option (Stop Asmchip32)) Asmchip32 :=
  loop lexerStep (fun c => c.parse.length) c

/-- A text in its buffer. -/
def buffer (p : Text) : Text := p ++ [nul]

@[simp] theorem length_buffer (p : Text) : (buffer p).length = p.length + 1 := by simp [buffer]

theorem buffer_cons (c : Char) (p : Text) : buffer (c :: p) = c :: buffer p := rfl

theorem tail_buffer {p : Text} (h : deref p ≠ nul) : (buffer p).tail = buffer p.tail := by
  cases p with
  | nil => exact absurd rfl h
  | cons c p => rfl

def overToken (tk : Lextoken) : Lextoken := { tk with start := buffer tk.start, stop := buffer tk.stop }

def overCmd (cmd : Lexcmd) : Lexcmd := cmd.map overToken

def overState (c : Asmchip32) : Asmchip32 :=
  { c with vcmd := c.vcmd.map overCmd, parse := buffer c.parse }

/-- The pointers of an error, too, go on to the end of the buffer. -/
def overStop {α : Type} (f : α → α) : Stop α → Option (Stop α)
  | .fault e => some (.fault e)
  | .fail a => some (.fail (f a))

def overComplaint (e : Complaint) : Complaint := { e with parse := buffer e.parse }

/-- The result of a function of the lexer, in the buffer. -/
def overLex {α β : Type} (f : α → β) (x : Asm.Lex α) : Lex β := mapBoth (overStop overComplaint) f x

/-- The command that is filled in, and the pointer. -/
def overPair (s : Lexcmd × Text) : Lexcmd × Text := (overCmd s.1, buffer s.2)

section Scanners

variable {p : Text}

theorem read_buffer {ε : Type} : (read (buffer p) : Except (Option ε) Char) = .ok (deref p) := by
  cases p <;> rfl

theorem skip_buffer {inside : Char → Bool} (hn : inside nul = false) :
    skip inside (buffer p) = .ok (buffer (p.dropWhile inside)) := by
  induction p with
  | nil => simp [buffer, skip, hn]
  | cons c p ih =>
    rw [buffer_cons, skip, List.dropWhile_cons]
    split_ifs with hc
    · exact ih
    · rfl

theorem skipSpace_buffer : skipSpace (buffer p) = .ok (buffer (Asm.skipSpace p)) := skip_buffer rfl

theorem skipComment_buffer : skipComment (buffer p) = .ok (buffer (Asm.skipComment p)) :=
  skip_buffer rfl

theorem endl_buffer : endl (buffer p) = .ok ((Asm.endl p).map buffer) := by
  rw [endl, read_buffer, ok_bind]
  cases p with
  | nil => rfl
  | cons c p =>
    rw [deref_cons]
    split
    · rfl
    · rfl
    · rw [skipComment_buffer, ok_bind, read_buffer, ok_bind]
      simp only [Asm.endl]
      split_ifs with hn
      · rw [tail_buffer hn]
        rfl
      · rfl
    next hnul hnl hsemi =>
      have hnone : Asm.endl (c :: p) = none := by
        unfold Asm.endl
        split
        next h => cases h
        next h => exact absurd (List.cons.inj h).1 hnul
        next h => exact absurd (List.cons.inj h).1 hnl
        next h => exact absurd (List.cons.inj h).1 hsemi
        next => rfl
      rw [hnone]
      rfl

theorem quoteLoop_buffer (quote : Char) :
    quoteLoop quote (buffer p) = .ok (buffer (Asm.quoteLoop quote p)) := by
  fun_induction Asm.quoteLoop quote p with
  | case1 => simp [buffer, quoteLoop]
  | case2 c hc => simp [buffer, quoteLoop, hc]
  | case3 c hc => simp [buffer, quoteLoop, hc]
  | case4 c d p hc => simp [buffer, quoteLoop, hc]
  | case5 c d p hc hesc ih =>
    rw [buffer_cons, buffer_cons, quoteLoop, if_neg hc, if_pos hesc, ih]
  | case6 c d p hc hesc ih =>
    rw [buffer_cons, buffer_cons, quoteLoop, if_neg hc, if_neg hesc]
    exact ih

theorem tokenQuote_buffer (hq : deref p ≠ nul) :
    tokenQuote (buffer p) = overLex buffer (Asm.tokenQuote p) := by
  rw [tokenQuote, read_buffer, ok_bind, tail_buffer hq, quoteLoop_buffer, ok_bind, read_buffer,
    ok_bind, Asm.tokenQuote]
  simp only [length_buffer, Nat.add_right_cancel_iff]
  split_ifs with h
  · rfl
  · rw [not_or, not_not] at h
    rw [tail_buffer fun hn => hq (h.2.symm.trans hn)]
    rfl

theorem tokenWord_buffer {wrong : Char → Prop} [DecidablePred wrong] {error : String}
    {inside : Char → Bool} (hn : inside nul = false) :
    tokenWord wrong error inside (buffer p) =
      overLex buffer (Asm.tokenWord wrong error inside p) := by
  rw [tokenWord, read_buffer, ok_bind, Asm.tokenWord]
  by_cases hw : wrong (deref p)
  · rw [if_pos hw, if_pos hw]
    rfl
  · rw [if_neg hw, if_neg hw, skip_buffer hn, ok_bind]
    simp only [length_buffer, Nat.add_right_cancel_iff]
    split_ifs <;> rfl

theorem putToken_buffer {line : Nat} {type : Tktype} {next : Text → Lex Text}
    {next' : Text → Asm.Lex Text} {cmd : Lexcmd} (h : next (buffer p) = overLex buffer (next' p)) :
    putToken line type next (buffer p) (overCmd cmd) =
      overLex overPair (Asm.putToken line type next' p cmd) := by
  rw [putToken, Asm.putToken, overCmd, List.length_map]
  split_ifs
  · rw [h]
    apply mapBoth_bind
    intro q
    simp [mapBoth, overPair, overCmd, overToken]
  · rfl

theorem argNext_buffer {line : Nat} {cmd : Lexcmd} :
    argNext line (buffer p) (overCmd cmd) = overLex overPair (Asm.argNext line p cmd) := by
  induction p generalizing cmd with
  | nil => rfl
  | cons c p ih =>
    rw [buffer_cons, argNext, Asm.argNext]
    cases prefixType c with
    | some type =>
      rw [← buffer_cons]
      simp only
      rw [@putToken_buffer _ _ _ _ Asm.tokenOne _ rfl]
      apply mapBoth_bind
      intro r
      exact ih
    | none =>
      rw [← buffer_cons]
      simp only
      split_ifs with _ _ hquote hquote
      · exact putToken_buffer rfl
      · exact putToken_buffer (tokenWord_buffer rfl)
      · exact putToken_buffer (tokenQuote_buffer (hquote ▸ (by decide : '\'' ≠ nul)))
      · exact putToken_buffer (tokenQuote_buffer (hquote ▸ (by decide : '"' ≠ nul)))
      · exact putToken_buffer (tokenWord_buffer rfl)
      · rfl

end Scanners

section Lines

variable (line : Nat) (s : Lexcmd × Text)

theorem labelStep_buffer :
    labelStep line (overPair s) = overLex (Outcome.map overPair) (Asm.labelStep line s) := by
  obtain ⟨cmd, p⟩ := s
  have hname : tokenNameNext (buffer p) = overLex buffer (Asm.tokenNameNext p) := tokenWord_buffer rfl
  simp only [labelStep, Asm.labelStep, overPair, hname, overCmd, List.length_map]
  split_ifs
  · apply mapBoth_bind
    intro q
    rw [read_buffer, ok_bind]
    split_ifs with hcolon hsep
    · rw [tail_buffer (hcolon ▸ by decide), skipSpace_buffer, ok_bind]
      simp [mapBoth, Outcome.map, overPair, overCmd, overToken]
    · rfl
    · simp [mapBoth, Outcome.map, overPair, overCmd, overToken]
  · rfl

theorem argStep_buffer :
    argStep line (overPair s) = overLex (Outcome.map overPair) (Asm.argStep line s) := by
  obtain ⟨cmd, p⟩ := s
  simp only [argStep, Asm.argStep, overPair]
  rw [skipSpace_buffer, ok_bind, endl_buffer, ok_bind]
  cases Asm.endl (Asm.skipSpace p) with
  | some q => rfl
  | none =>
    simp only [Option.map_none]
    rw [argNext_buffer]
    apply mapBoth_bind
    rintro ⟨cmd', q⟩
    simp only [overPair]
    rw [endl_buffer, ok_bind]
    cases Asm.endl q with
    | some r => rfl
    | none =>
      simp only [Option.map_none]
      rw [read_buffer, ok_bind]
      split_ifs with hcomma
      · rfl
      · rw [tail_buffer (not_not.mp hcomma ▸ by decide)]
        rfl

theorem lexerLine_buffer (p : Text) : lexerLine line (buffer p) =
    overLex (Prod.map (Option.map overCmd) buffer) (Asm.lexerLine line p) := by
  simp only [lexerLine, Asm.lexerLine]
  rw [skipSpace_buffer, ok_bind, endl_buffer, ok_bind]
  cases Asm.endl (Asm.skipSpace p) with
  | some q => rfl
  | none =>
    simp only [Option.map_none]
    have hlabels : loop (labelStep line) left ([], buffer (Asm.skipSpace p)) =
        overLex overPair (loop (Asm.labelStep line) left ([], Asm.skipSpace p)) :=
      loop_mapBoth (labelStep_left line) (labelStep_buffer line) (s := ([], Asm.skipSpace p))
        (by simp [left, overPair])
    rw [hlabels]
    apply mapBoth_bind
    intro s
    rw [loop_mapBoth (argStep_left line) (argStep_buffer line) (by simp [left, overPair])]
    apply mapBoth_bind
    intro t
    rfl

theorem lexerStep_buffer (c : Asmchip32) : lexerStep (overState c) =
    mapBoth (overStop overState) (Outcome.map overState) (Asm.lexerStep c) := by
  simp only [lexerStep, Asm.lexerStep, overState]
  rw [read_buffer, ok_bind]
  split_ifs with hn
  · rfl
  · rw [lexerLine_buffer]
    cases Asm.lexerLine c.line c.parse with
    | error x => cases x <;> rfl
    | ok r =>
      obtain ⟨cmd, p⟩ := r
      cases cmd <;> simp [overLex, mapBoth, Outcome.map, overState]

/-- In its buffer the lexer does what it does without one. -/
theorem lexer_buffer (c : Asmchip32) :
    lexer (overState c) = mapBoth (overStop overState) overState (Asm.lexer c) :=
  loop_mapBoth lexerStep_left lexerStep_buffer (by simp [overState])

end Lines

end Checked

/-- Tokens that are not empty and stand one behind the other in the source. -/
structure Ordered (code : Text) (tks : List Lextoken) : Prop where
  spans : ∀ tk ∈ tks, tk.start <:+ code ∧ tk.stop <:+ tk.start ∧ tk.stop ≠ tk.start
  apart : tks.Pairwise fun a b => b.start <:+ a.stop

theorem Ordered.nil (code : Text) : Ordered code [] := ⟨nofun, .nil⟩

/-- Tokens, and others in what they leave. -/
theorem Ordered.append {code q : Text} {xs ys : List Lextoken} (hx : Ordered code xs)
    (hy : Ordered q ys) (hq : q <:+ code) (hbehind : ∀ tk ∈ xs, q <:+ tk.stop) :
    Ordered code (xs ++ ys) := by
  refine ⟨List.forall_mem_append.mpr ⟨hx.spans, fun tk htk => ?_⟩, ?_⟩
  · obtain ⟨hstart, hspan⟩ := hy.spans tk htk
    exact ⟨hstart.trans hq, hspan⟩
  · exact List.pairwise_append.mpr ⟨hx.apart, hy.apart, fun a ha b hb =>
      (hy.spans b hb).1.trans (hbehind a ha)⟩

theorem behind_lay {line : Nat} {ps : List Part} {q : Text} : ∀ tk ∈ lay line ps q, q <:+ tk.stop := by
  induction ps with
  | nil => exact nofun
  | cons p ps ih =>
    cases p with
    | filler t => exact ih
    | token type t => exact List.forall_mem_cons.mpr ⟨List.suffix_append _ _, ih⟩

theorem ordered_lay {line : Nat} {ps : List Part} (h : ∀ type t, .token type t ∈ ps → t ≠ [])
    (q : Text) : Ordered (spell ps ++ q) (lay line ps q) := by
  induction ps with
  | nil => exact .nil q
  | cons p ps ih =>
    have ih := ih fun type t ht => h type t (List.mem_cons_of_mem p ht)
    cases p with
    | filler t =>
      rw [spell_filler, List.append_assoc]
      exact (Ordered.nil _).append ih (List.suffix_append _ _) nofun
    | token type t =>
      have hne : spell ps ++ q ≠ t ++ (spell ps ++ q) := fun he =>
        h type t List.mem_cons_self (List.self_eq_append_left.mp he)
      have hone : Ordered (t ++ (spell ps ++ q)) [⟨line, type, t ++ (spell ps ++ q), spell ps ++ q⟩] :=
        ⟨List.forall_mem_singleton.mpr ⟨List.suffix_rfl, List.suffix_append _ _, hne⟩,
          List.pairwise_singleton _ _⟩
      rw [spell_token, List.append_assoc]
      exact hone.append ih (List.suffix_append _ _) (List.forall_mem_singleton.mpr List.suffix_rfl)

theorem token_ne_nil {p : Part} (h : LinePart p) {type : Tktype} {t : List Char}
    (hp : p = .token type t) : t ≠ [] := by
  cases h with
  | space | colon | comma | trail => cases hp
  | label i => cases hp; exact List.cons_ne_nil _ _
  | sigil s => cases hp; exact List.cons_ne_nil _ _
  | atom a =>
    cases hp
    cases a <;> exact List.cons_ne_nil _ _

/-- The tokens recorded so far, none of which reaches into what is left of the source. -/
structure Passed (code : Text) (c : Asmchip32) : Prop where
  ordered : Ordered code c.vcmd.flatten
  left : c.parse <:+ code
  behind : ∀ tk ∈ c.vcmd.flatten, c.parse <:+ tk.stop

theorem suffix_of_ending {e rest : Text} (h : Ending e rest) : rest <:+ e := by
  rcases h with rfl | ⟨rfl, _⟩
  · exact List.suffix_cons _ _
  · exact List.suffix_rfl

theorem step_passed {code : Text} {c d : Asmchip32} (hc : Passed code c)
    (h : lexerStep c = .ok (.next d)) : Passed code d := by
  obtain ⟨r, _, hline, rfl⟩ := lexerStep_next h
  obtain ⟨l, e, hread⟩ := lexerLine_places hline
  have hrest := suffix_of_ending hread.ending
  have htokens : Ordered c.parse (lay c.line l.parts e) := by
    rw [hread.text]
    exact ordered_lay (fun type t ht => token_ne_nil (l.linePart _ ht) rfl) e
  have hflatten : (c.vcmd ++ r.1.toList).flatten = c.vcmd.flatten ++ lay c.line l.parts e := by
    rw [List.flatten_append, hread.cmd, flatten_lineCmd]
  have hleft : r.2 <:+ c.parse := by
    rw [hread.text]
    exact hrest.trans (List.suffix_append _ _)
  refine ⟨?_, hleft.trans hc.left, ?_⟩
  · rw [hflatten]
    exact hc.ordered.append htokens hc.left hc.behind
  · rw [hflatten]
    exact List.forall_mem_append.mpr ⟨fun tk htk => hleft.trans (hc.behind tk htk),
      fun tk htk => hrest.trans (behind_lay tk htk)⟩

/-- A state of the lexer in front of a line, or in which it returns. -/
def BetweenLines (code : Text) (c : Asmchip32) : Prop :=
  (∃ k, iterate lexerStep k (.new code) = .ok (.next c)) ∨ lexer (.new code) = .ok c ∨
    lexer (.new code) = .error (.fail c)

theorem vcmd_of_fail {c d : Asmchip32} (h : lexerStep c = .error (.fail d)) : d.vcmd = c.vcmd := by
  unfold lexerStep at h
  split_ifs at h
  split at h <;> cases h
  rfl

theorem betweenLines_ordered {code : Text} {c : Asmchip32} (h : BetweenLines code c) :
    Ordered code c.vcmd.flatten := by
  have hstart : Passed code (.new code) := ⟨.nil code, List.suffix_rfl, nofun⟩
  rcases h with ⟨k, h⟩ | h | h
  · have hpassed := iterate_invariant (P := fun _ => True) (I := Passed code) lexerStep
      (fun c d hc _ hstep => step_passed hc hstep) hstart (fun _ _ _ _ => trivial) h
    exact hpassed.ordered
  · refine loop_ok (P := fun c d => Passed code c → Ordered code d.vcmd.flatten) lexerStep_left
      ?_ ?_ h hstart
    · intro c d hstep hc
      rw [lexerStep_stop hstep]
      exact hc.ordered
    · intro c d e hstep ih hc
      exact ih (step_passed hc hstep)
  · refine loop_error (P := fun d => Passed code d → Ordered code c.vcmd.flatten) lexerStep_left
      ?_ ?_ h hstart
    · intro d hstep hd
      rw [vcmd_of_fail hstep]
      exact hd.ordered
    · intro d e hstep ih hd
      exact ih (step_passed hd hstep)

/-- The lexer and the loops over a line end, a line that is read takes the pointer on, no
character behind the NUL is read, and the tokens stand in the source in their order. -/
structure StaysInside (code : Text) : Prop where
  ends : ∃ k, ∀ c, iterate lexerStep k (.new code) ≠ .ok (.next c)
  lines_end : ∀ line s, (∃ k, ∀ t, iterate (labelStep line) k s ≠ .ok (.next t)) ∧
    ∃ k, ∀ t, iterate (argStep line) k s ≠ .ok (.next t)
  advances : ∀ line p r, p <:+ code → deref p ≠ nul → lexerLine line p = .ok r →
    r.2 <:+ p ∧ r.2 ≠ p
  agrees : Checked.lexer (.new (Checked.buffer code)) =
    mapBoth (Checked.overStop Checked.overState) Checked.overState (lexer (.new code))
  inside : Checked.lexer (.new (Checked.buffer code)) ≠ .error none
  ordered : ∀ c, BetweenLines code c → Ordered code c.vcmd.flatten

theorem lexer_stays_inside (code : Text) : StaysInside code where
  ends := iterate_ends lexerStep_left _
  lines_end line s := ⟨iterate_ends (labelStep_left line) s, iterate_ends (argStep_left line) s⟩
  advances line p r _ hn h := by
    obtain ⟨l, e, hread⟩ := lexerLine_places h
    refine ⟨?_, fun he => ?_⟩
    · rw [hread.text]
      exact (suffix_of_ending hread.ending).trans (List.suffix_append _ _)
    · have hlt := (lexerLine_ok h).2 hn
      rw [he] at hlt
      exact Nat.lt_irrefl _ hlt
  agrees := Checked.lexer_buffer (.new code)
  inside := by
    have hsame : Checked.lexer (.new (Checked.buffer code)) = _ := Checked.lexer_buffer (.new code)
    rw [hsame]
    cases lexer (.new code) with
    | ok c => exact nofun
    | error x => cases x <;> exact nofun
  ordered _ := betweenLines_ordered

end Asm
