import Chip32.Listing
import Chip32.LexerSlots
import Chip32.Respelling

/-!
# The lexer on a listing

A listing is read exactly if it is proper, and then as its tokens; and every source that
is read is the text of a proper listing. The lexer wants a comma or the end of the line
directly behind an argument, and a character behind a command name.
-/
namespace Asm

open Runs Grammar

@[simp] theorem spell_parts (a : Arg) : spell a.parts = a.text := by
  obtain ⟨sigils, atom⟩ := a
  induction sigils with
  | nil => simp [Arg.parts, Arg.text]
  | cons s sigils ih =>
    simp only [Arg.parts, Arg.text, List.map_cons, List.cons_append, spell_token] at ih ⊢
    rw [ih]
    rfl

@[simp] theorem tokensOf_parts (a : Arg) : tokensOf a.parts = a.tokens := by
  obtain ⟨sigils, atom⟩ := a
  induction sigils with
  | nil => rfl
  | cons s sigils ih =>
    simp only [Arg.parts, Arg.tokens, List.map_cons, List.cons_append, tokensOf_token] at ih ⊢
    rw [ih]

theorem labels_parts (labels : List (Ident × Space)) :
    Labels (labels.map Prod.fst) (spell (labelParts labels)) := by
  induction labels with
  | nil => exact .nil
  | cons l labels ih =>
    have hcons := Labels.cons l.1 l.2.2 ih
    simpa [labelParts] using hcons

theorem tokensOf_labels (labels : List (Ident × Space)) : tokensOf (labelParts labels) =
    (labels.map Prod.fst).map fun i => (Tktype.label, i.text) := by
  induction labels with
  | nil => rfl
  | cons l labels ih => simpa [labelParts] using ih

/-- `e` ends a line in front of `rest`. -/
def Ending (e rest : Text) : Prop := e = '\n' :: rest ∨ e = rest ∧ deref rest = nul

/-- A comment, if there is one, and the end of the line. -/
theorem endl_remark {e rest : Text} (h : Ending e rest) (remark : Option Remark) :
    endl (remarkText remark ++ e) = some rest := by
  have hend : endl e = some rest := by
    rcases h with rfl | ⟨rfl, hn⟩
    · rfl
    · exact endl_nul hn
  cases remark with
  | none => exact hend
  | some t =>
    have ht : ∀ c ∈ t.1, (c ≠ nul && c ≠ '\n') = true := fun c hc => by simp [t.2 c hc]
    have hstop : deref e = nul ∨ deref e = '\n' := by
      rcases h with rfl | ⟨rfl, hn⟩
      · exact .inr rfl
      · exact .inl hn
    change endl (';' :: (t.1 ++ e)) = some rest
    rw [endl_comment ht hstop]
    rcases h with rfl | ⟨rfl, hn⟩
    · rfl
    · rw [hn]
      rfl

theorem endl_remark_head {e rest : Text} (h : Ending e rest) (remark : Option Remark) :
    isBlank (deref (remarkText remark ++ e)) = false := by
  rcases endl_head (endl_remark h remark) with h | h | h <;> rw [h] <;> rfl

/-- A blank is no part of an argument, no comma and no end of a line. -/
theorem blank_separates {b : Text} (hb : Blanks b) (hne : b ≠ []) (q : Text) :
    Delimits (b ++ q) ∧ endl (b ++ q) = none ∧ deref (b ++ q) ≠ ',' := by
  obtain ⟨c, b, rfl⟩ := List.exists_cons_of_ne_nil hne
  have hc : Blank c := hb c (by simp)
  have hhead : ∀ c, Blank c → (inName c = false ∧ inInteger c = false) ∧
      (c ≠ nul ∧ c ≠ '\n' ∧ c ≠ ';') ∧ c ≠ ',' := by
    rintro c (rfl | rfl) <;> decide
  obtain ⟨hdelim, hend, hcomma⟩ := hhead c hc
  exact ⟨hdelim, endl_eq_none hend, hcomma⟩

section Lines

variable {line : Nat} {cmd : Lexcmd} {l : Line} {e rest : Text}

/-- Blanks and a comment are skipped at the end of a line. -/
theorem endl_trail (h : Ending e rest) {b : Text} (hb : Blanks b) :
    endl (skipSpace (b ++ (l.trail ++ e))) = some rest := by
  have hblanks : Blanks (b ++ l.gap.1) := by
    intro c hc
    rcases List.mem_append.mp hc with hc | hc
    · exact hb c hc
    · exact l.gap.2 c hc
  rw [Line.trail, List.append_assoc, ← List.append_assoc b,
    skipSpace_blanks hblanks (endl_remark_head h l.remark), endl_remark h l.remark]

/-- Directly behind an argument the line ends if no blank is there. -/
theorem endl_gap (h : Ending e rest) (hg : l.gap.1 = []) : endl (l.trail ++ e) = some rest := by
  rw [Line.trail, hg]
  exact endl_remark h l.remark

theorem delimits_trail (h : Ending e rest) : Delimits (l.trail ++ e) := by
  by_cases hg : l.gap.1 = []
  · rcases endl_head (endl_gap h hg) with h | h | h <;> simp only [Delimits, h] <;> decide
  · rw [Line.trail, List.append_assoc]
    exact (blank_separates l.gap.2 hg _).1

/-- An argument is read as its tokens, or is outside the slots. -/
theorem argNext_or (line : Nat) (a : Arg) {q : Text} (hq : Delimits q) (cmd : Lexcmd) :
    (cmd.length + a.tokens.length ≤ maxToken ∧ ∃ cmd', argNext line (a.text ++ q) cmd = .ok (cmd', q) ∧
        shapes cmd' = shapes cmd ++ a.tokens) ∨
      maxToken < cmd.length + a.tokens.length ∧ argNext line (a.text ++ q) cmd = outside := by
  by_cases hfit : cmd.length + a.tokens.length ≤ maxToken
  · exact .inl ⟨hfit, argNext_text line a hq cmd hfit⟩
  · obtain ⟨x, q', hx, htext⟩ := arg_text a q
    refine .inr ⟨by omega, ?_⟩
    rw [htext]
    apply argNext_outside hx q' a.sigils
    simp only [Arg.tokens, List.length_append, List.length_map, List.length_singleton] at hfit
    omega

theorem argStep_outside {p : Text} (hbegins : Begins (deref (skipSpace p)))
    (h : argNext line (skipSpace p) cmd = outside) : argStep line (cmd, p) = outside := by
  simp only [argStep, endl_eq_none hbegins.2, h, error_bind]

/-- Behind an argument there is neither a comma nor the end of the line. -/
theorem argStep_separator {p q : Text} {cmd' : Lexcmd}
    (h : argNext line (skipSpace p) cmd = .ok (cmd', q)) (hend : endl q = none)
    (hcomma : deref q ≠ ',') : argStep line (cmd, p) = complain "wrong seaprator" q := by
  simp only [argStep, endl_eq_none (begins_argNext h).2, h, ok_bind, hend]
  rw [if_pos hcomma]

/-- The arguments are where the lexer wants them, behind `n` tokens. -/
def Takes (o : Operands) (l : Line) (n : Nat) : Prop :=
  o.Tight ∧ (o.EndsInArg → l.gap.1 = []) ∧ n + (tokensOf o.parts).length ≤ maxToken

/-- The loop over the arguments reads them where they are takable, and fails otherwise. -/
def ReadsOperands (line : Nat) (l : Line) (e rest : Text) (o : Operands) (cmd : Lexcmd) : Prop :=
  (Takes o l cmd.length ∧ ∃ cmd',
    loop (argStep line) left (cmd, spell o.parts ++ (l.trail ++ e)) = .ok (cmd', rest) ∧
      shapes cmd' = shapes cmd ++ tokensOf o.parts) ∨
  ¬ Takes o l cmd.length ∧ ∃ x,
    loop (argStep line) left (cmd, spell o.parts ++ (l.trail ++ e)) = .error x

theorem readsOperands_done (line : Nat) (h : Ending e rest) (b : Space)
    (hlen : cmd.length ≤ maxToken) : ReadsOperands line l e rest (.done b) cmd := by
  have hstep : argStep line (cmd, spell (Operands.done b).parts ++ (l.trail ++ e)) =
      .ok (.stop (cmd, rest)) := by
    simp only [argStep, Operands.parts, spell_filler, spell_nil, List.append_nil, endl_trail h b.2]
    rfl
  exact .inl ⟨⟨trivial, False.elim, hlen⟩, cmd, loop_of_stop hstep, by simp [Operands.parts]⟩

theorem readsOperands_last (line : Nat) (h : Ending e rest) (b : Space) (a : Arg) :
    ReadsOperands line l e rest (.last b a) cmd := by
  have hbegins := begins_arg a (l.trail ++ e)
  have hskip : skipSpace (spell (Operands.last b a).parts ++ (l.trail ++ e)) =
      a.text ++ (l.trail ++ e) := by
    simp only [Operands.parts, spell_filler, spell_parts, List.append_assoc]
    exact skipSpace_blanks b.2 hbegins.1
  rcases argNext_or line a (delimits_trail h) cmd with ⟨hfit, cmd', harg, hs⟩ | ⟨hfit, harg⟩
  · rw [← hskip] at harg
    by_cases hg : l.gap.1 = []
    · refine .inl ⟨⟨trivial, fun _ => hg, by simpa [Operands.parts] using hfit⟩, cmd', ?_, ?_⟩
      · exact loop_of_stop (argStep_end harg (endl_gap h hg))
      · simpa [Operands.parts] using hs
    · obtain ⟨_, hend, hcomma⟩ := blank_separates l.gap.2 hg
        (remarkText l.remark ++ e)
      rw [← List.append_assoc, ← Line.trail] at hend hcomma
      exact .inr ⟨fun htakes => hg (htakes.2.1 trivial), _,
        loop_of_error (argStep_separator harg hend hcomma)⟩
  · rw [← hskip] at harg hbegins
    refine .inr ⟨fun htakes => ?_, _, loop_of_error (argStep_outside hbegins harg)⟩
    have := htakes.2.2
    simp only [Operands.parts, tokensOf_filler, tokensOf_parts] at this
    omega

/-- An argument and its comma are read, and the rest behind them. -/
theorem readsOperands_more (line : Nat) (b : Space) (a : Arg) (g : Space) {o : Operands}
    (ih : ∀ cmd₁ : Lexcmd, cmd₁.length ≤ maxToken → ReadsOperands line l e rest o cmd₁) :
    ReadsOperands line l e rest (.more b a g o) cmd := by
  have hdelim : Delimits (g.1 ++ ',' :: (spell o.parts ++ (l.trail ++ e))) := by
    by_cases hg : g.1 = []
    · rw [hg]
      exact ⟨rfl, rfl⟩
    · exact (blank_separates g.2 hg _).1
  have hbegins := begins_arg a (g.1 ++ ',' :: (spell o.parts ++ (l.trail ++ e)))
  have hskip : skipSpace (spell (Operands.more b a g o).parts ++ (l.trail ++ e)) =
      a.text ++ (g.1 ++ ',' :: (spell o.parts ++ (l.trail ++ e))) := by
    rw [← skipSpace_blanks b.2 hbegins.1]
    simp [Operands.parts]
  have hcount : (tokensOf (Operands.more b a g o).parts).length =
      a.tokens.length + (tokensOf o.parts).length := by
    simp [Operands.parts]
  rcases argNext_or line a hdelim cmd with ⟨hfit, cmd₁, harg, hs₁⟩ | ⟨hfit, harg⟩
  · rw [← hskip] at harg
    by_cases hg : g.1 = []
    · rw [hg, List.nil_append] at harg
      have hlen₁ : cmd₁.length = cmd.length + a.tokens.length := by
        simpa using congrArg List.length hs₁
      have hnext := loop_of_next (argStep_left line) (argStep_comma harg)
      have htakes : Takes (.more b a g o) l cmd.length ↔ Takes o l cmd₁.length := by
        rw [Takes, Takes, hcount, hlen₁, Nat.add_assoc]
        exact and_congr_left' (and_iff_right hg)
      rw [ReadsOperands, hnext, htakes]
      refine Or.imp_left ?_ (ih cmd₁ (hlen₁ ▸ hfit))
      rintro ⟨hin, cmd₂, hloop, hs₂⟩
      refine ⟨hin, cmd₂, hloop, ?_⟩
      rw [hs₂, hs₁]
      simp [Operands.parts]
    · obtain ⟨_, hend, hcomma⟩ := blank_separates g.2 hg (',' :: (spell o.parts ++ (l.trail ++ e)))
      exact .inr ⟨fun htakes => hg htakes.1.1, _,
        loop_of_error (argStep_separator harg hend hcomma)⟩
  · rw [← hskip] at harg hbegins
    refine .inr ⟨fun htakes => ?_, _, loop_of_error (argStep_outside hbegins harg)⟩
    have := htakes.2.2
    omega

theorem argLoop_listed (line : Nat) (l : Line) (h : Ending e rest) (o : Operands)
    (hlen : cmd.length ≤ maxToken) : ReadsOperands line l e rest o cmd := by
  induction o generalizing cmd with
  | done b => exact readsOperands_done line h b hlen
  | last b a => exact readsOperands_last line h b a
  | more b a g o ih => exact readsOperands_more line b a g fun _ => ih

/-- The loop over the labels comes to the command name. -/
theorem labelLoop_name (line : Nat) {is : List Ident} {t : Text} (ht : Labels is t) (i : Ident) (q : Text)
    (hfit : cmd.length + is.length < maxToken) :
    ∃ cmd', loop (labelStep line) left (cmd, t ++ (i.text ++ q)) =
        loop (labelStep line) left (cmd', i.text ++ q) ∧ cmd'.length = cmd.length + is.length ∧
      shapes cmd' = shapes cmd ++ is.map fun i => (Tktype.label, i.text) := by
  induction ht generalizing cmd with
  | nil => exact ⟨cmd, rfl, rfl, by simp⟩
  | @cons j is b t hb ht ih =>
    rw [List.length_cons] at hfit
    have htext : j.text ++ ':' :: (b ++ t) ++ (i.text ++ q) =
        j.text ++ ':' :: (b ++ (t ++ (i.text ++ q))) := by simp
    have hstep := loop_of_next (labelStep_left line)
      (@labelStep_colon line j (b ++ (t ++ (i.text ++ q))) cmd (by omega))
    rw [skipSpace_blanks hb (begins_labels ht i q).1] at hstep
    obtain ⟨cmd', hloop, hlen, hs⟩ := @ih (cmd ++ [⟨line, .label,
      j.text ++ ':' :: (b ++ (t ++ (i.text ++ q))), ':' :: (b ++ (t ++ (i.text ++ q)))⟩])
      (by simp only [List.length_append, List.length_singleton]; omega)
    refine ⟨cmd', by rw [htext, hstep, hloop], ?_, ?_⟩
    · simp only [List.length_append, List.length_singleton] at hlen
      rw [hlen, List.length_cons]
      omega
    · rw [hs, shapes_append, shapes_single]
      simp

theorem labelStep_separator {i : Ident} {q : Text} (hlen : cmd.length < maxToken)
    (hn : deref q = nul) : labelStep line (cmd, i.text ++ q) = complain "wrong separator" q := by
  have hname : inName (deref q) = false := by
    rw [hn]
    rfl
  simp only [labelStep]
  rw [if_pos hlen, tokenNameNext_iff.mpr ⟨i, rfl, hname⟩, ok_bind, hn]
  rfl

/-- What stands behind the command name begins with a blank or ends the line. -/
theorem operands_head (h : Ending e rest) {o : Operands} (hopens : o.Opens) :
    (Blank (deref (spell o.parts ++ (l.trail ++ e))) ∨
      deref (spell o.parts ++ (l.trail ++ e)) = '\n' ∨
        deref (spell o.parts ++ (l.trail ++ e)) = ';') ∨
    spell o.parts = [] ∧ l.trail = [] ∧ deref e = nul := by
  have hblank : ∀ {b q : Text}, Blanks b → b ≠ [] → Blank (deref (b ++ q)) := by
    intro b q hb hne
    obtain ⟨c, b, rfl⟩ := List.exists_cons_of_ne_nil hne
    exact hb c (by simp)
  have htrail : (Blank (deref (l.trail ++ e)) ∨ deref (l.trail ++ e) = '\n' ∨
      deref (l.trail ++ e) = ';') ∨ l.trail = [] ∧ deref e = nul := by
    by_cases hg : l.gap.1 = []
    · rw [Line.trail, hg, List.nil_append]
      cases l.remark with
      | some t => exact .inl (.inr (.inr rfl))
      | none =>
        rcases h with rfl | ⟨rfl, hn⟩
        · exact .inl (.inr (.inl rfl))
        · exact .inr ⟨rfl, hn⟩
    · rw [Line.trail, List.append_assoc]
      exact .inl (.inl (hblank l.gap.2 hg))
  cases o with
  | done b =>
    rw [Operands.parts, spell_filler, spell_nil, List.append_nil]
    by_cases hb : b.1 = []
    · rw [hb, List.nil_append]
      exact htrail.imp_right fun h => ⟨rfl, h⟩
    · exact .inl (.inl (hblank b.2 hb))
  | last b a | more b a g o =>
    rw [Operands.parts, spell_filler, List.append_assoc]
    exact .inl (.inl (hblank b.2 hopens))

theorem endsInName_iff {indent : Space} {labels : List (Ident × Space)} {name : Ident}
    {o : Operands} {opens : o.Opens} (hrow : l.row = .command indent labels name o opens) :
    l.EndsInName ↔ spell o.parts = [] ∧ l.trail = [] := by
  rw [Line.EndsInName, hrow]
  cases o with
  | done b => simp [Operands.parts]
  | last b a | more b a g o =>
    have hb : b.1 ≠ [] := opens
    simp [Operands.parts, hb]

/-- The line is one that the lexer takes, in front of `e`. -/
def Line.Taken (l : Line) (e : Text) : Prop :=
  l.Tight ∧ l.Fits ∧ ¬ (l.EndsInName ∧ deref e = nul)

/-- The lexer reads the line as its tokens where it takes it, and fails otherwise. -/
def ReadsLine (line : Nat) (l : Line) (e rest : Text) : Prop :=
  (Line.Taken l e ∧ ∃ cmd, lexerLine line (l.text ++ e) = .ok (cmd, rest) ∧
      cmd.map shapes = l.tokens) ∨
    ¬ Line.Taken l e ∧ ∃ x, lexerLine line (l.text ++ e) = .error x

theorem readsLine_blank (line : Nat) (h : Ending e rest) {b : Space} (hrow : l.row = .blank b) :
    ReadsLine line l e rest := by
  have htext : l.text ++ e = b.1 ++ (l.trail ++ e) := by simp [Line.text, Line.parts, hrow, Row.parts]
  refine .inl ⟨⟨?_, ?_, ?_⟩, none, ?_, ?_⟩
  · rw [Line.Tight, hrow]
    trivial
  · simp [Line.Fits, Line.parts, hrow, Row.parts]
  · rw [Line.EndsInName, hrow]
    exact And.left
  · rw [htext]
    simp only [lexerLine, endl_trail h b.2]
    rfl
  · rw [Line.tokens, hrow]
    rfl

section Command

variable {indent : Space} {labels : List (Ident × Space)} {name : Ident} {o : Operands}
variable {opens : o.Opens} (hrow : l.row = .command indent labels name o opens)
include hrow

theorem command_tokens : tokensOf l.parts =
    (labels.map Prod.fst).map (fun i => (Tktype.label, i.text)) ++
      (.name, name.text) :: tokensOf o.parts := by
  simp [Line.parts, hrow, Row.parts, tokensOf_labels]

theorem command_count :
    (tokensOf l.parts).length = labels.length + 1 + (tokensOf o.parts).length := by
  rw [command_tokens hrow]
  simp
  omega

/-- A line with a command is read by the two loops. -/
theorem lexerLine_loops (line : Nat) (e : Text) : lexerLine line (l.text ++ e) = (do
    let s ← loop (labelStep line) left ([], spell (labelParts labels) ++
      (name.text ++ (spell o.parts ++ (l.trail ++ e))))
    let r ← loop (argStep line) left s
    pure (some r.1, r.2)) := by
  have htext : l.text ++ e = indent.1 ++ (spell (labelParts labels) ++
      (name.text ++ (spell o.parts ++ (l.trail ++ e)))) := by
    simp [Line.text, Line.parts, hrow, Row.parts]
  have hbegins := begins_labels (labels_parts labels) name (spell o.parts ++ (l.trail ++ e))
  simp only [lexerLine, htext, skipSpace_blanks indent.2 hbegins.1, endl_eq_none hbegins.2]

/-- Unless the source ends in the name, the operands decide whether the line is taken. -/
theorem taken_command (hends : ¬ (l.EndsInName ∧ deref e = nul)) :
    Line.Taken l e ↔ Takes o l (labels.length + 1) := by
  have htight : l.Tight ↔ o.Tight ∧ (o.EndsInArg → l.gap.1 = []) := by rw [Line.Tight, hrow]
  rw [Line.Taken, Takes, htight, Line.Fits, command_count hrow, and_iff_left hends, and_assoc]

/-- The command name is read, and the operands are left. -/
theorem readsLine_operands (line : Nat) (h : Ending e rest) (hfit : labels.length < maxToken)
    (hhead : Blank (deref (spell o.parts ++ (l.trail ++ e))) ∨
      deref (spell o.parts ++ (l.trail ++ e)) = '\n' ∨
        deref (spell o.parts ++ (l.trail ++ e)) = ';') : ReadsLine line l e rest := by
  obtain ⟨cmd₀, hloop, hlen₀, hs₀⟩ := @labelLoop_name [] line _ _ (labels_parts labels) name
    (spell o.parts ++ (l.trail ++ e)) (by simpa using hfit)
  rw [List.length_nil, Nat.zero_add, List.length_map] at hlen₀
  obtain ⟨cmd₁, hloop₁, hs₁⟩ :=
    labelLoop_text line .nil name hhead cmd₀ (by simpa [hlen₀] using hfit)
  have hlen₁ : cmd₁.length = labels.length + 1 := by
    simpa [hlen₀] using congrArg List.length hs₁
  have hends : ¬ (l.EndsInName ∧ deref e = nul) := by
    rintro ⟨hname, hn⟩
    rw [endsInName_iff hrow] at hname
    rw [hname.1, hname.2, List.nil_append, List.nil_append, hn] at hhead
    rcases hhead with (h | h) | h | h <;> exact absurd h (by decide)
  have hline := lexerLine_loops hrow line e
  rw [List.nil_append] at hloop₁
  rw [hloop, hloop₁, ok_bind] at hline
  rw [ReadsLine, taken_command hrow hends, ← hlen₁, hline]
  refine Or.imp ?_ ?_ (argLoop_listed line l h o (by omega : cmd₁.length ≤ maxToken))
  · rintro ⟨htakes, cmd₂, hloop₂, hs₂⟩
    refine ⟨htakes, some cmd₂, by rw [hloop₂]; rfl, ?_⟩
    rw [Option.map_some, hs₂, hs₁, hs₀, Line.tokens, hrow, command_tokens hrow]
    simp
  · rintro ⟨htakes, x, hx⟩
    exact ⟨htakes, x, by rw [hx]; rfl⟩

theorem readsLine_command (line : Nat) (h : Ending e rest) : ReadsLine line l e rest := by
  have hline := lexerLine_loops hrow line e
  by_cases hfit : labels.length < maxToken
  · rcases operands_head (l := l) h opens with hhead | ⟨hspell, htrail, hn⟩
    · exact readsLine_operands hrow line h hfit hhead
    · obtain ⟨cmd₀, hloop, hlen₀, _⟩ := @labelLoop_name [] line _ _ (labels_parts labels) name
        (spell o.parts ++ (l.trail ++ e)) (by simpa using hfit)
      rw [List.length_nil, Nat.zero_add, List.length_map] at hlen₀
      refine .inr ⟨fun htaken => htaken.2.2 ⟨(endsInName_iff hrow).mpr ⟨hspell, htrail⟩, hn⟩, ?_⟩
      rw [hline, hloop, hspell, htrail, List.nil_append, List.nil_append,
        loop_of_error (labelStep_separator (by omega) hn)]
      exact ⟨_, rfl⟩
  · have hout : loop (labelStep line) left ([], spell (labelParts labels) ++
        (name.text ++ (spell o.parts ++ (l.trail ++ e)))) = outside := by
      apply labelLoop_outside (labels_parts labels)
      simpa using hfit
    refine .inr ⟨fun htaken => ?_, _, by rw [hline, hout]; rfl⟩
    have := htaken.2.1
    rw [Line.Fits, command_count hrow] at this
    omega

end Command

/-- A line is read as its tokens, or the lexer fails. -/
theorem lexerLine_listed (line : Nat) (l : Line) (h : Ending e rest) : ReadsLine line l e rest := by
  cases hrow : l.row with
  | blank b => exact readsLine_blank line h hrow
  | command indent labels name o opens => exact readsLine_command hrow line h

end Lines

theorem proper_nil {last : Line} : Listing.Proper ⟨[], last⟩ ↔ Line.Taken last [] := by
  constructor
  · rintro ⟨htight, hfits, hends⟩
    exact ⟨htight last (by simp), hfits last (by simp), fun h => hends h.1⟩
  · rintro ⟨htight, hfits, hends⟩
    refine ⟨?_, ?_, fun h => hends ⟨h, rfl⟩⟩
    · simpa using htight
    · simpa using hfits

theorem proper_cons {l : Line} {ls : List Line} {last : Line} (rest : Text) :
    Listing.Proper ⟨l :: ls, last⟩ ↔ Line.Taken l ('\n' :: rest) ∧ Listing.Proper ⟨ls, last⟩ := by
  have hnl : '\n' ≠ nul := by decide
  have hends : ¬ (l.EndsInName ∧ deref ('\n' :: rest) = nul) := fun h => hnl h.2
  constructor
  · rintro ⟨htight, hfits, hlast⟩
    rw [List.cons_append] at htight hfits
    obtain ⟨ht, htight⟩ := List.forall_mem_cons.mp htight
    obtain ⟨hf, hfits⟩ := List.forall_mem_cons.mp hfits
    exact ⟨⟨ht, hf, hends⟩, htight, hfits, hlast⟩
  · rintro ⟨⟨ht, hf, _⟩, htight, hfits, hlast⟩
    refine ⟨?_, ?_, hlast⟩
    · rw [List.cons_append]
      exact List.forall_mem_cons.mpr ⟨ht, htight⟩
    · rw [List.cons_append]
      exact List.forall_mem_cons.mpr ⟨hf, hfits⟩

theorem line_head (l : Line) {e : Text} (he : deref e ≠ nul) : deref (l.text ++ e) ≠ nul := by
  have htrail : deref (l.trail ++ e) ≠ nul := by
    rw [Line.trail, List.append_assoc]
    apply deref_blanks l.gap.2
    cases l.remark with
    | none => exact he
    | some t => exact (by decide : ';' ≠ nul)
  obtain ⟨row, gap, remark⟩ := l
  cases row with
  | blank b =>
    simp only [Line.text, Line.parts, Row.parts, List.cons_append, List.nil_append, spell_filler,
      spell_nil, List.append_nil, List.append_assoc]
    exact deref_blanks b.2 htrail
  | command indent labels name o opens =>
    simp only [Line.text, Line.parts, Row.parts, List.cons_append, spell_append, spell_filler,
      spell_token, List.append_assoc]
    exact deref_blanks indent.2 (begins_labels (labels_parts labels) name _).2.1

theorem lexer_of_fail {c : Asmchip32} {x : Stop Complaint} (hn : deref c.parse ≠ nul)
    (h : lexerLine c.line c.parse = .error x) : ∃ y, lexer c = .error y := by
  have hstep : ∃ y, lexerStep c = .error y := by
    unfold lexerStep
    rw [if_neg hn, h]
    cases x <;> exact ⟨_, rfl⟩
  obtain ⟨y, hy⟩ := hstep
  exact ⟨y, loop_of_error hy⟩

theorem lexer_of_nul {c : Asmchip32} (hn : deref c.parse = nul) : lexer c = .ok c :=
  loop_of_stop (by rw [lexerStep, if_pos hn])

/-- The lexer reads a listing as its tokens where it is proper, and fails otherwise. -/
def ReadsListing (s : Listing) (c : Asmchip32) : Prop :=
  (s.Proper ∧ ∃ d, lexer c = .ok d ∧ d.vcmd.map shapes = c.vcmd.map shapes ++ s.tokens) ∨
    ¬ s.Proper ∧ ∃ x, lexer c = .error x

/-- At the end of the source a line is left as it is. -/
theorem lexerLine_nul (line : Nat) {p : Text} (hn : deref p = nul) :
    lexerLine line p = .ok (none, p) := by
  have hskip : skipSpace p = p :=
    skipSpace_blanks (b := []) (q := p) (List.forall_mem_nil _) (by rw [hn]; rfl)
  simp only [lexerLine, hskip, endl_nul hn]
  rfl

theorem readsListing_last {last : Line} {c : Asmchip32} (hparse : c.parse = last.text ++ []) :
    ReadsListing ⟨[], last⟩ c := by
  have hline := lexerLine_listed c.line last (.inr ⟨rfl, rfl⟩ : Ending [] [])
  rw [ReadsLine, ← hparse] at hline
  rw [ReadsListing, proper_nil]
  by_cases hn : deref c.parse = nul
  · rw [lexerLine_nul c.line hn] at hline
    rcases hline with ⟨htaken, cmd, hcmd, htokens⟩ | ⟨_, x, hx⟩
    · obtain ⟨rfl, _⟩ := Prod.mk.inj (Except.ok.inj hcmd)
      refine .inl ⟨htaken, c, lexer_of_nul hn, ?_⟩
      simp [Listing.tokens, ← htokens]
    · cases hx
  · refine hline.imp ?_ ?_
    · rintro ⟨htaken, cmd, hcmd, htokens⟩
      refine ⟨htaken, _, (lexer_of_line hn hcmd).trans (lexer_of_nul rfl), ?_⟩
      cases cmd <;> simp [Listing.tokens, ← htokens]
    · rintro ⟨htaken, x, hx⟩
      exact ⟨htaken, lexer_of_fail hn hx⟩

theorem readsListing_cons {l : Line} {s : Listing} {c : Asmchip32}
    (hparse : c.parse = l.text ++ '\n' :: s.text)
    (ih : ∀ d : Asmchip32, d.parse = s.text → ReadsListing s d) :
    ReadsListing ⟨l :: s.lines, s.last⟩ c := by
  have hn : deref c.parse ≠ nul := by
    rw [hparse]
    exact line_head l (by decide : '\n' ≠ nul)
  have hline := lexerLine_listed c.line l (.inl rfl : Ending ('\n' :: s.text) s.text)
  rw [ReadsLine, ← hparse] at hline
  rw [ReadsListing, proper_cons s.text]
  rcases hline with ⟨htaken, cmd, hcmd, htokens⟩ | ⟨htaken, x, hx⟩
  · rw [lexer_of_line hn hcmd, and_iff_right htaken]
    refine Or.imp_left ?_ (ih _ rfl)
    rintro ⟨hproper, d, hd, hs⟩
    refine ⟨hproper, d, hd, ?_⟩
    rw [hs]
    cases cmd <;> simp [Listing.tokens, ← htokens]
  · exact .inr ⟨fun h => htaken h.1, lexer_of_fail hn hx⟩

/-- The lexer reads what is left of a listing, or fails. -/
theorem lexer_lines_listed (ls : List Line) (last : Line) (c : Asmchip32)
    (hparse : c.parse = Listing.text ⟨ls, last⟩) : ReadsListing ⟨ls, last⟩ c := by
  induction ls generalizing c with
  | nil =>
    refine readsListing_last (hparse.trans ?_)
    rw [List.append_nil]
    rfl
  | cons l ls ih =>
    refine readsListing_cons (s := ⟨ls, last⟩) (hparse.trans ?_) ih
    simp [Listing.text]

/-- A listing is read exactly if it is proper. -/
theorem lexer_listing (s : Listing) : (∃ c, lexer (.new s.text) = .ok c) ↔ s.Proper := by
  rcases lexer_lines_listed s.lines s.last (.new s.text) rfl with ⟨hproper, d, hd, _⟩ | ⟨hproper, x, hx⟩
  · exact iff_of_true ⟨d, hd⟩ hproper
  · refine iff_of_false ?_ hproper
    rintro ⟨d, hd⟩
    cases hx.symm.trans hd

/-- It is read as its tokens. -/
theorem listing_shapes {s : Listing} {c : Asmchip32} (h : lexer (.new s.text) = .ok c) :
    c.vcmd.map shapes = s.tokens := by
  rcases lexer_lines_listed s.lines s.last (.new s.text) rfl with ⟨_, d, hd, hs⟩ | ⟨_, x, hx⟩
  · cases hd.symm.trans h
    exact hs
  · cases hx.symm.trans h

end Asm
