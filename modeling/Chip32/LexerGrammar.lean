import Chip32.LexerScan

/-!
# The lexer and the line grammar

An argument, a command and a source are read from any of their layouts, and what
the lexer reads is always a well-formed command.
-/
namespace Asm

open Runs Grammar

/-- The type and the text of each token. -/
def shapes (cmd : Lexcmd) : List (Tktype × List Char) := cmd.map fun tk => (tk.type, tk.text)

@[simp] theorem shapes_nil : shapes [] = [] := rfl

@[simp] theorem shapes_append (cmd cmd' : Lexcmd) :
    shapes (cmd ++ cmd') = shapes cmd ++ shapes cmd' :=
  List.map_append

@[simp] theorem length_shapes (cmd : Lexcmd) : (shapes cmd).length = cmd.length := List.length_map _

theorem shapes_single (line : Nat) (type : Tktype) (t stop : Text) :
    shapes [⟨line, type, t ++ stop, stop⟩] = [(type, t)] := by
  simp [shapes, Lextoken.text_mk]

theorem prefixType_sigil (s : Sigil) : prefixType s.char = some s.type := by
  cases s <;> rfl

theorem exists_sigil {c : Char} {type : Tktype} (h : prefixType c = some type) :
    ∃ s : Sigil, s.char = c ∧ s.type = type := by
  unfold prefixType at h
  split at h
  · exact ⟨.ram, rfl, Option.some.inj h⟩
  · exact ⟨.addr, rfl, Option.some.inj h⟩
  · exact ⟨.ptr, rfl, Option.some.inj h⟩
  · exact ⟨.data, rfl, Option.some.inj h⟩
  · cases h

theorem prefixType_eq_none {c : Char} (h : c ≠ '$' ∧ c ≠ '&' ∧ c ≠ '*' ∧ c ≠ '@') :
    prefixType c = none := by
  cases hp : prefixType c with
  | none => rfl
  | some type =>
    obtain ⟨s, rfl, _⟩ := exists_sigil hp
    cases s <;> simp [Sigil.char] at h

theorem putToken_iff {line : Nat} {type : Tktype} {next : Text → Lex Text} {p : Text}
    {cmd : Lexcmd} {r : Lexcmd × Text} :
    putToken line type next p cmd = .ok r ↔
      cmd.length < maxToken ∧ next p = .ok r.2 ∧ r.1 = cmd ++ [⟨line, type, p, r.2⟩] := by
  unfold putToken
  split_ifs with h
  · rw [bind_eq_ok]
    constructor
    · rintro ⟨q, hq, hr⟩
      cases hr
      exact ⟨h, hq, rfl⟩
    · rintro ⟨_, hq, hr⟩
      exact ⟨r.2, hq, by rw [← hr]; rfl⟩
  · simp [h]

/-- What one token written to the command adds to it. -/
theorem putToken_ok {line : Nat} {type : Tktype} {next : Text → Lex Text} {t q : Text}
    {cmd : Lexcmd} {r : Lexcmd × Text} (h : putToken line type next (t ++ q) cmd = .ok r)
    (hr : r.2 = q) :
    shapes r.1 = shapes cmd ++ [(type, t)] ∧ r.1.length ≤ maxToken := by
  obtain ⟨hlen, _, hcmd⟩ := putToken_iff.mp h
  subst hr
  rw [hcmd, shapes_append, shapes_single, List.length_append, List.length_singleton]
  exact ⟨rfl, hlen⟩

theorem putToken_text (line : Nat) (type : Tktype) {next : Text → Lex Text} {t q : Text}
    {cmd : Lexcmd} (hlen : cmd.length < maxToken) (h : next (t ++ q) = .ok q) :
    ∃ cmd', putToken line type next (t ++ q) cmd = .ok (cmd', q) ∧
      shapes cmd' = shapes cmd ++ [(type, t)] := by
  have hput : putToken line type next (t ++ q) cmd = .ok (cmd ++ [⟨line, type, t ++ q, q⟩], q) :=
    putToken_iff.mpr ⟨hlen, h, rfl⟩
  exact ⟨_, hput, (putToken_ok hput rfl).1⟩

/-- The part of `a32_arg_next` behind the prefix characters. -/
theorem argNext_atom {line : Nat} {c : Char} {p : Text} {cmd : Lexcmd} {r : Lexcmd × Text}
    (hp : prefixType c = none) (h : argNext line (c :: p) cmd = .ok r) :
    ∃ a : Atom, c :: p = a.text ++ r.2 ∧ shapes r.1 = shapes cmd ++ [(a.type, a.text)] ∧
      r.1.length ≤ maxToken := by
  have put : ∀ {type next t}, putToken line type next (c :: p) cmd = .ok r → c :: p = t ++ r.2 →
      shapes r.1 = shapes cmd ++ [(type, t)] ∧ r.1.length ≤ maxToken := by
    intro type next t h ht
    rw [ht] at h
    exact putToken_ok h rfl
  simp only [argNext, hp] at h
  split_ifs at h with h₁ h₂ h₃ h₄ h₅
  · have hone : c :: p = Atom.auto.text ++ r.2 := by
      obtain ⟨_, hr, _⟩ := putToken_iff.mp h
      cases hr
      rw [h₁]
      rfl
    exact ⟨.auto, hone, put h hone⟩
  · obtain ⟨n, hn, _⟩ := tokenInteger_iff.mp (putToken_iff.mp h).2.1
    exact ⟨.number n, hn, put h hn⟩
  · subst h₃
    obtain ⟨b, hb⟩ := (tokenQuote_iff (by decide) (by decide)).mp (putToken_iff.mp h).2.1
    exact ⟨.char b, hb, put h hb⟩
  · subst h₄
    obtain ⟨b, hb⟩ := (tokenQuote_iff (by decide) (by decide)).mp (putToken_iff.mp h).2.1
    exact ⟨.str b, hb, put h hb⟩
  · obtain ⟨i, hi, _⟩ := tokenNameNext_iff.mp (putToken_iff.mp h).2.1
    exact ⟨.name i, hi, put h hi⟩
  · exact absurd h complain_ne_ok

/-- Every argument the lexer reads is one of the grammar's. -/
theorem argNext_ok {line : Nat} {p : Text} {cmd : Lexcmd} {r : Lexcmd × Text}
    (h : argNext line p cmd = .ok r) :
    ∃ a : Arg, p = a.text ++ r.2 ∧ shapes r.1 = shapes cmd ++ a.tokens ∧
      r.1.length ≤ maxToken := by
  induction p generalizing cmd with
  | nil => exact absurd h complain_ne_ok
  | cons c p ih =>
    cases hp : prefixType c with
    | none =>
      obtain ⟨a, ha, hs, hl⟩ := argNext_atom hp h
      exact ⟨⟨[], a⟩, ha, hs, hl⟩
    | some type =>
      simp only [argNext, hp] at h
      obtain ⟨r', hput, hr⟩ := bind_eq_ok.mp h
      obtain ⟨s, rfl, rfl⟩ := exists_sigil hp
      obtain ⟨hs, _⟩ := putToken_ok (t := [s.char]) hput (Except.ok.inj (putToken_iff.mp hput).2.1).symm
      obtain ⟨a, ha, hs', hl⟩ := ih hr
      refine ⟨⟨s :: a.sigils, a.atom⟩, ?_, ?_, hl⟩
      · rw [ha]
        rfl
      · rw [hs', hs, List.append_assoc]
        rfl

/-- What follows an argument cannot be taken for a part of it. -/
def Delimits (q : Text) : Prop := inName (deref q) = false ∧ inInteger (deref q) = false

theorem argNext_number (line : Nat) (n : Number) (q : Text) (cmd : Lexcmd) :
    argNext line (n.text ++ q) cmd =
      putToken line .literalNum tokenInteger (n.text ++ q) cmd := by
  have hne : ∀ d, ¬ (d.isDigit ∨ d = '-') → n.head ≠ d := by
    rintro d hd rfl
    exact hd n.head_ok
  have hp : prefixType n.head = none := by
    apply prefixType_eq_none
    exact ⟨hne _ (by decide), hne _ (by decide), hne _ (by decide), hne _ (by decide)⟩
  have hn : (n.head = '-' || isDigit n.head) = true := by
    rcases n.head_ok with h | h
    · simp [isDigit_iff.mpr h]
    · simp [h]
  simp only [Word.text, List.cons_append, argNext, hp]
  rw [if_neg (hne _ (by decide)), if_pos hn]

theorem argNext_name (line : Nat) (i : Ident) (q : Text) (cmd : Lexcmd) :
    argNext line (i.text ++ q) cmd = putToken line .name tokenNameNext (i.text ++ q) cmd := by
  have hne : ∀ d, ¬ (d.isAlpha ∨ d = '_') → i.head ≠ d := by
    rintro d hd rfl
    exact hd i.head_ok
  have hp : prefixType i.head = none := by
    apply prefixType_eq_none
    exact ⟨hne _ (by decide), hne _ (by decide), hne _ (by decide), hne _ (by decide)⟩
  have hdigit : ¬ ((i.head = '-' || isDigit i.head) = true) := by
    simp [hne '-' (by decide), not_isDigit_of_nameStart i.head_ok]
  have hstart := letter_iff.mpr i.head_ok
  simp only [Word.text, List.cons_append, argNext, hp]
  rw [if_neg (hne _ (by decide)), if_neg hdigit, if_neg (hne _ (by decide)),
    if_neg (hne _ (by decide)), if_pos hstart]

theorem argNext_atom_text (line : Nat) (a : Atom) {q : Text} (hq : Delimits q) {cmd : Lexcmd}
    (hlen : cmd.length < maxToken) :
    ∃ cmd', argNext line (a.text ++ q) cmd = .ok (cmd', q) ∧
      shapes cmd' = shapes cmd ++ [(a.type, a.text)] := by
  cases a with
  | auto => exact putToken_text line .auto (t := ['?']) hlen rfl
  | number n =>
    obtain ⟨cmd', hput, hs⟩ := putToken_text line .literalNum hlen
      (tokenInteger_iff.mpr ⟨n, rfl, hq.2⟩)
    exact ⟨cmd', (argNext_number line n q cmd).trans hput, hs⟩
  | name i =>
    obtain ⟨cmd', hput, hs⟩ := putToken_text line .name hlen
      (tokenNameNext_iff.mpr ⟨i, rfl, hq.1⟩)
    exact ⟨cmd', (argNext_name line i q cmd).trans hput, hs⟩
  | char b =>
    exact putToken_text line _ (t := b.quoted) hlen
      ((tokenQuote_iff (by decide) (by decide)).mpr ⟨b, rfl⟩)
  | str b =>
    exact putToken_text line _ (t := b.quoted) hlen
      ((tokenQuote_iff (by decide) (by decide)).mpr ⟨b, rfl⟩)

/-- An argument of the grammar is read as its own tokens. -/
theorem argNext_text (line : Nat) (a : Arg) {q : Text} (hq : Delimits q) (cmd : Lexcmd)
    (hfit : cmd.length + a.tokens.length ≤ maxToken) :
    ∃ cmd', argNext line (a.text ++ q) cmd = .ok (cmd', q) ∧
      shapes cmd' = shapes cmd ++ a.tokens := by
  obtain ⟨sigils, atom⟩ := a
  induction sigils generalizing cmd with
  | nil =>
    exact argNext_atom_text line atom hq (Nat.lt_of_succ_le hfit)
  | cons s sigils ih =>
    have hlen : cmd.length < maxToken := by
      simp [Arg.tokens] at hfit
      omega
    have hone : tokenOne ([s.char] ++ (Arg.text ⟨sigils, atom⟩ ++ q)) =
        .ok (Arg.text ⟨sigils, atom⟩ ++ q) := rfl
    obtain ⟨cmd₁, hput, hs₁⟩ := putToken_text line s.type hlen hone
    have hlen₁ := congrArg List.length hs₁
    obtain ⟨cmd₂, harg, hs₂⟩ := @ih cmd₁ (by
      simp [Arg.tokens] at hfit hlen₁ ⊢
      omega)
    refine ⟨cmd₂, ?_, ?_⟩
    · have hput' : putToken line s.type tokenOne (s.char :: (Arg.text ⟨sigils, atom⟩ ++ q)) cmd =
          .ok (cmd₁, Arg.text ⟨sigils, atom⟩ ++ q) := hput
      rw [← harg]
      simp only [Arg.text, List.map_cons, List.cons_append, argNext, prefixType_sigil] at hput' ⊢
      rw [hput']
      rfl
    · rw [hs₂, hs₁, List.append_assoc]
      rfl

theorem argNext_length {line : Nat} {p : Text} {cmd : Lexcmd} {r : Lexcmd × Text}
    (h : argNext line p cmd = .ok r) : r.2.length < p.length := by
  obtain ⟨⟨sigils, atom⟩, rfl, _⟩ := argNext_ok h
  have hpos : 0 < atom.text.length := by
    cases atom <;> simp [Atom.text, Word.text, Body.quoted]
  simp only [Arg.text, List.length_append]
  omega

theorem labelStep_ok {line : Nat} {s : Lexcmd × Text} {o : Outcome (Lexcmd × Text)}
    (h : labelStep line s = .ok o) :
    ∃ (i : Ident) (q : Text), s.2 = i.text ++ q ∧ s.1.length < maxToken ∧
      (deref q = ':' ∧ o = .next (s.1 ++ [⟨line, .label, s.2, q⟩], skipSpace q.tail) ∨
        o = .stop (s.1 ++ [⟨line, .name, s.2, q⟩], q)) := by
  unfold labelStep at h
  split_ifs at h with hlen
  · obtain ⟨q, hq, h⟩ := bind_eq_ok.mp h
    obtain ⟨i, hi, _⟩ := tokenNameNext_iff.mp hq
    refine ⟨i, q, hi, hlen, ?_⟩
    split_ifs at h with hc hsep
    · exact .inl ⟨hc, (Except.ok.inj h).symm⟩
    · exact absurd h complain_ne_ok
    · exact .inr (Except.ok.inj h).symm

theorem labelStep_stop {line : Nat} {s t : Lexcmd × Text} (h : labelStep line s = .ok (.stop t)) :
    ∃ i : Ident, s.2 = i.text ++ t.2 ∧ t.1.length = s.1.length + 1 ∧
      (Blank (deref t.2) ∨ deref t.2 = '\n' ∨ deref t.2 = ';') := by
  unfold labelStep at h
  split_ifs at h
  obtain ⟨q, hq, h⟩ := bind_eq_ok.mp h
  obtain ⟨i, hi, _⟩ := tokenNameNext_iff.mp hq
  split_ifs at h with hc hsep
  · cases h
  · exact absurd h complain_ne_ok
  · cases h
    refine ⟨i, hi, by simp, ?_⟩
    simp only [ne_eq, ← not_or, not_not] at hsep
    simpa only [Blank, or_assoc] using hsep

theorem labelStep_left (line : Nat) (s t : Lexcmd × Text) (h : labelStep line s = .ok (.next t)) :
    left t < left s := by
  obtain ⟨i, q, hs, _, ⟨_, ho⟩ | ho⟩ := labelStep_ok h
  · cases ho
    have := length_skipSpace_le q.tail
    simp only [left, hs, List.length_append, List.length_tail, Word.text, List.length_cons] at this ⊢
    omega
  · cases ho

/-- The loop over labels and name reads labels and a name. -/
theorem labelLoop_ok {line : Nat} {s t : Lexcmd × Text}
    (h : loop (labelStep line) left s = .ok t) :
    ∃ (is : List Ident) (i : Ident),
      shapes t.1 = shapes s.1 ++ (is.map (fun i => (Tktype.label, i.text)) ++ [(.name, i.text)]) ∧
      t.1.length ≤ maxToken ∧ t.2.length < s.2.length := by
  refine loop_ok (P := fun s t => ∃ (is : List Ident) (i : Ident),
      shapes t.1 = shapes s.1 ++ (is.map (fun i => (Tktype.label, i.text)) ++ [(.name, i.text)]) ∧
      t.1.length ≤ maxToken ∧ t.2.length < s.2.length) (labelStep_left line) ?_ ?_ h
  · intro s t h
    obtain ⟨i, q, hs, hlen, ⟨_, ho⟩ | ho⟩ := labelStep_ok h
    · cases ho
    · cases ho
      refine ⟨[], i, ?_, ?_, by simp only [hs, Word.text, List.length_append, List.length_cons]; omega⟩
      rotate_left
      · rw [List.length_append]
        exact hlen
      rw [shapes_append, hs, shapes_single]
      rfl
  · rintro s t u h ⟨is, i, hu, hlen, hlt⟩
    have hleft := labelStep_left line s t h
    obtain ⟨j, q, hs, _, ⟨_, ho⟩ | ho⟩ := labelStep_ok h
    · cases ho
      refine ⟨j :: is, i, ?_, hlen, hlt.trans hleft⟩
      rw [hu, shapes_append, hs, shapes_single]
      simp
    · cases ho

theorem argStep_ok {line : Nat} {s : Lexcmd × Text} {o : Outcome (Lexcmd × Text)}
    (h : argStep line s = .ok o) :
    (∃ q, endl (skipSpace s.2) = some q ∧ o = .stop (s.1, q)) ∨
    ∃ cmd q, argNext line (skipSpace s.2) s.1 = .ok (cmd, q) ∧
      ((∃ r, endl q = some r ∧ o = .stop (cmd, r)) ∨ o = .next (cmd, q.tail)) := by
  simp only [argStep] at h
  split at h
  next q hq => exact .inl ⟨q, hq, (Except.ok.inj h).symm⟩
  next =>
    obtain ⟨⟨cmd, q⟩, harg, h⟩ := bind_eq_ok.mp h
    refine .inr ⟨cmd, q, harg, ?_⟩
    simp only at h
    split at h
    next r hr => exact .inl ⟨r, hr, (Except.ok.inj h).symm⟩
    next =>
      split_ifs at h
      · exact absurd h complain_ne_ok
      · exact .inr (Except.ok.inj h).symm

/-- The loop over the arguments goes on behind a comma. -/
theorem argNext_of_next {line : Nat} {s t : Lexcmd × Text} (h : argStep line s = .ok (.next t)) :
    argNext line (skipSpace s.2) s.1 = .ok (t.1, ',' :: t.2) := by
  simp only [argStep] at h
  split at h
  · cases h
  · obtain ⟨⟨cmd, q⟩, harg, h⟩ := bind_eq_ok.mp h
    simp only at h
    split at h
    · cases h
    · split_ifs at h with hcomma
      · exact absurd h complain_ne_ok
      · cases h
        rw [harg]
        cases q with
        | nil => exact absurd hcomma (by decide)
        | cons c q =>
          obtain rfl : c = ',' := not_not.mp hcomma
          rfl

theorem argStep_left (line : Nat) (s t : Lexcmd × Text) (h : argStep line s = .ok (.next t)) :
    left t < left s := by
  have hskip := length_skipSpace_le s.2
  obtain ⟨q, _, ho⟩ | ⟨cmd, q, harg, ⟨r, _, ho⟩ | ho⟩ := argStep_ok h <;> cases ho
  have hlt := argNext_length harg
  simp only [left, List.length_tail] at *
  omega

/-- The loop over the arguments reads arguments. -/
theorem argLoop_ok {line : Nat} {s t : Lexcmd × Text} (h : loop (argStep line) left s = .ok t) :
    s.1.length ≤ maxToken →
      (∃ as : List Arg, shapes t.1 = shapes s.1 ++ as.flatMap Arg.tokens) ∧
      t.1.length ≤ maxToken ∧ t.2.length ≤ s.2.length := by
  refine loop_ok (P := fun s t => s.1.length ≤ maxToken →
      (∃ as : List Arg, shapes t.1 = shapes s.1 ++ as.flatMap Arg.tokens) ∧
      t.1.length ≤ maxToken ∧ t.2.length ≤ s.2.length) (argStep_left line) ?_ ?_ h
  · intro s t h hlen
    have hskip := length_skipSpace_le s.2
    obtain ⟨q, hq, ho⟩ | ⟨cmd, q, harg, ⟨r, hr, ho⟩ | ho⟩ := argStep_ok h
    · cases ho
      exact ⟨⟨[], by simp⟩, hlen, (endl_length hq).1.trans hskip⟩
    · cases ho
      obtain ⟨a, _, hs, hlen'⟩ := argNext_ok harg
      exact ⟨⟨[a], by simp [hs]⟩, hlen',
        ((endl_length hr).1.trans (argNext_length harg).le).trans hskip⟩
    · cases ho
  · intro s t u h ih hlen
    have hleft := argStep_left line s t h
    obtain ⟨q, _, ho⟩ | ⟨cmd, q, harg, ⟨r, _, ho⟩ | ho⟩ := argStep_ok h <;> cases ho
    obtain ⟨a, _, hs, hlen'⟩ := argNext_ok harg
    obtain ⟨⟨as, has⟩, hu, hle⟩ := ih hlen'
    refine ⟨⟨a :: as, ?_⟩, hu, hle.trans hleft.le⟩
    rw [has, hs, List.append_assoc, List.flatMap_cons]

/-- A line is read as no command or as a well-formed one. -/
theorem lexerLine_ok {line : Nat} {p : Text} {r : Option Lexcmd × Text}
    (h : lexerLine line p = .ok r) :
    (∀ cmd ∈ r.1, ∃ c : Cmd, shapes cmd = c.tokens) ∧
      (deref p ≠ nul → r.2.length < p.length) := by
  have hskip := length_skipSpace_le p
  simp only [lexerLine] at h
  split at h
  next q hq =>
    cases h
    refine ⟨nofun, fun hp => ?_⟩
    by_cases hn : deref (skipSpace p) = nul
    · have hmoved : skipSpace p ≠ p := fun e => hp (by rw [← e]; exact hn)
      have hlt := lt_of_le_of_ne hskip fun e =>
        hmoved ((List.dropWhile_suffix isBlank).eq_of_length e)
      exact (endl_length hq).1.trans_lt hlt
    · exact ((endl_length hq).2 hn).trans_le hskip
  next =>
    obtain ⟨s, hs, h⟩ := bind_eq_ok.mp h
    obtain ⟨⟨cmd, q⟩, ht, h⟩ := bind_eq_ok.mp h
    cases h
    obtain ⟨is, i, hshape, hlen, hlt⟩ := labelLoop_ok hs
    obtain ⟨⟨as, has⟩, hlen', hle⟩ := argLoop_ok ht hlen
    refine ⟨?_, fun _ => (hle.trans_lt hlt).trans_le hskip⟩
    rintro _ ⟨⟩
    have htokens : shapes cmd = is.map (fun i => (Tktype.label, i.text)) ++
        (.name, i.text) :: as.flatMap Arg.tokens := by
      rw [has, hshape]
      simp
    refine ⟨⟨is, i, as, ?_⟩, htokens⟩
    have hfit : cmd.length ≤ maxToken := hlen'
    have hlength := congrArg List.length htokens
    simp only [length_shapes, List.length_append, List.length_map, List.length_cons] at hlength
    omega

theorem lexerStep_next {c d : Asmchip32} (h : lexerStep c = .ok (.next d)) :
    ∃ r, deref c.parse ≠ nul ∧ lexerLine c.line c.parse = .ok r ∧
      d = { c with vcmd := c.vcmd ++ r.1.toList, parse := r.2, line := c.line + 1 } := by
  unfold lexerStep at h
  split_ifs at h with hn
  · cases h
  · split at h
    · cases h
    · cases h
    next cmd p hline =>
      cases h
      exact ⟨_, hn, hline, rfl⟩

theorem lexerStep_left (c d : Asmchip32) (h : lexerStep c = .ok (.next d)) :
    d.parse.length < c.parse.length := by
  obtain ⟨r, hn, hline, rfl⟩ := lexerStep_next h
  exact (lexerLine_ok hline).2 hn

theorem lexerStep_stop {c d : Asmchip32} (h : lexerStep c = .ok (.stop d)) : d = c := by
  unfold lexerStep at h
  split_ifs at h
  · exact (Outcome.stop.inj (Except.ok.inj h)).symm
  · split at h <;> cases h

/-- What every line gives its command holds of all that the lexer adds to `vcmd`. -/
theorem lexer_lines {P : Lexcmd → Prop}
    (hline : ∀ line p r, lexerLine line p = .ok r → ∀ cmd ∈ r.1, P cmd) {c d : Asmchip32}
    (h : lexer c = .ok d) : (∀ cmd ∈ c.vcmd, P cmd) → ∀ cmd ∈ d.vcmd, P cmd := by
  refine loop_ok (P := fun c d => (∀ cmd ∈ c.vcmd, P cmd) → ∀ cmd ∈ d.vcmd, P cmd)
    lexerStep_left ?_ ?_ h
  · intro c d h hc
    rw [lexerStep_stop h]
    exact hc
  · intro c d e h ih hc
    obtain ⟨r, _, hr, rfl⟩ := lexerStep_next h
    apply ih
    intro cmd hcmd
    rcases List.mem_append.mp hcmd with hcmd | hcmd
    · exact hc cmd hcmd
    · exact hline _ _ r hr cmd (Option.mem_toList.mp hcmd)

/-- Every entry the lexer adds to `vcmd` is a well-formed command. -/
theorem lexer_ok {c d : Asmchip32} (h : lexer c = .ok d) :
    (∀ cmd ∈ c.vcmd, ∃ w : Cmd, shapes cmd = w.tokens) →
      ∀ cmd ∈ d.vcmd, ∃ w : Cmd, shapes cmd = w.tokens :=
  lexer_lines (fun _ _ _ hr => (lexerLine_ok hr).1) h

/-- The lexer fills `vcmd` and leaves the rest to the parser. -/
theorem lexer_keeps {c d : Asmchip32} (h : lexer c = .ok d) :
    d.mc = c.mc ∧ d.avaddr = c.avaddr ∧ d.declare = c.declare ∧ d.error = c.error := by
  refine loop_ok (P := fun c d => d.mc = c.mc ∧ d.avaddr = c.avaddr ∧ d.declare = c.declare ∧
    d.error = c.error) lexerStep_left ?_ ?_ h
  · intro c d h
    rw [lexerStep_stop h]
    exact ⟨rfl, rfl, rfl, rfl⟩
  · intro c d e h ih
    obtain ⟨r, _, _, rfl⟩ := lexerStep_next h
    exact ih

theorem eol_head {e : Text} (he : Eol e) (t : Text) :
    deref (e ++ t) = '\n' ∨ deref (e ++ t) = ';' := by
  cases he with
  | newline => exact .inl rfl
  | comment c hc => exact .inr rfl

theorem delimits_eol {e : Text} (he : Eol e) (t : Text) : Delimits (e ++ t) := by
  rcases eol_head he t with h | h <;> simp only [Delimits, h] <;> decide

/-- A character that is no blank and does not end a line. -/
def Begins (c : Char) : Prop := isBlank c = false ∧ c ≠ nul ∧ c ≠ '\n' ∧ c ≠ ';'

instance : DecidablePred Begins := fun _ => inferInstanceAs (Decidable (_ ∧ _))

theorem begins_of_isAlphanum {c : Char} (h : c.isAlphanum ∨ c = '_' ∨ c = '-') : Begins c := by
  have hne : ∀ d, ¬ (d.isAlphanum ∨ d = '_' ∨ d = '-') → c ≠ d := by
    rintro d hd rfl
    exact hd h
  refine ⟨?_, hne _ (by decide), hne _ (by decide), hne _ (by decide)⟩
  simp [isBlank, hne ' ' (by decide), hne '\t' (by decide)]

theorem begins_ident (i : Ident) (q : Text) : Begins (deref (i.text ++ q)) := by
  apply begins_of_isAlphanum
  rcases i.head_ok with h | h
  · exact .inl (by simp [Word.text, Char.isAlphanum, h])
  · exact .inr (.inl h)

theorem begins_arg (a : Arg) (q : Text) : Begins (deref (a.text ++ q)) := by
  obtain ⟨_ | ⟨s, sigils⟩, atom⟩ := a
  · cases atom with
    | auto => exact (by decide : Begins '?')
    | number n =>
      apply begins_of_isAlphanum
      rcases n.head_ok with h | h
      · exact .inl (by simp [Arg.text, Atom.text, Word.text, Char.isAlphanum, h])
      · exact .inr (.inr h)
    | name i => exact begins_ident i q
    | char b => exact (by decide : Begins '\'')
    | str b => exact (by decide : Begins '"')
  · cases s with
    | ram => exact (by decide : Begins '$')
    | addr => exact (by decide : Begins '&')
    | ptr => exact (by decide : Begins '*')
    | data => exact (by decide : Begins '@')

theorem begins_labels {is : List Ident} {l : Text} (hl : Labels is l) (i : Ident) (q : Text) :
    Begins (deref (l ++ (i.text ++ q))) := by
  cases hl with
  | nil => exact begins_ident i q
  | cons j hb ht =>
    rw [List.append_assoc]
    exact begins_ident j _

/-- The labels of a line and its name are read as their tokens. -/
theorem labelLoop_text (line : Nat) {is : List Ident} {l : Text} (hl : Labels is l) (i : Ident)
    {q : Text} (hq : Blank (deref q) ∨ deref q = '\n' ∨ deref q = ';') (cmd : Lexcmd)
    (hfit : cmd.length + is.length < maxToken) :
    ∃ cmd', loop (labelStep line) left (cmd, l ++ (i.text ++ q)) = .ok (cmd', q) ∧
      shapes cmd' = shapes cmd ++ (is.map (fun i => (Tktype.label, i.text)) ++ [(.name, i.text)]) := by
  induction hl generalizing cmd with
  | nil =>
    have hsep : inName (deref q) = false ∧ deref q ≠ ':' ∧
        ¬ (deref q ≠ ' ' ∧ deref q ≠ '\t' ∧ deref q ≠ '\n' ∧ deref q ≠ ';') := by
      rcases hq with (h | h) | h | h <;> simp only [h] <;> decide
    refine ⟨cmd ++ [⟨line, .name, i.text ++ q, q⟩], loop_of_stop ?_, ?_⟩
    · simp only [List.nil_append, labelStep]
      rw [if_pos (Nat.lt_of_add_right_lt hfit), tokenNameNext_iff.mpr ⟨i, rfl, hsep.1⟩, ok_bind, if_neg hsep.2.1,
        if_neg hsep.2.2]
      rfl
    · rw [shapes_append, shapes_single]
      rfl
  | @cons j is b t hb ht ih =>
    simp only [List.length_cons] at hfit
    obtain ⟨cmd', hloop, hs⟩ := @ih (cmd ++ [⟨line, .label,
        j.text ++ ':' :: (b ++ (t ++ (i.text ++ q))), ':' :: (b ++ (t ++ (i.text ++ q)))⟩])
      (by simp only [List.length_append, List.length_singleton]; omega)
    refine ⟨cmd', ?_, ?_⟩
    · rw [← hloop]
      apply loop_of_next (labelStep_left line)
      have htext : j.text ++ ':' :: (b ++ t) ++ (i.text ++ q) =
          j.text ++ ':' :: (b ++ (t ++ (i.text ++ q))) := by simp
      simp only [labelStep, htext]
      rw [if_pos (by omega), tokenNameNext_iff.mpr ⟨j, rfl, rfl⟩, ok_bind,
        if_pos (deref_cons _ _), List.tail_cons, skipSpace_blanks hb (begins_labels ht i q).1]
      rfl
    · rw [hs, shapes_append, shapes_single]
      simp

/-- The arguments of a line are read as their tokens. -/
theorem argLoop_text (line : Nat) {as : List Arg} {t e : Text} (ht : Args as t) (he : Eol e)
    (rest : Text) {cmd : Lexcmd}
    (hfit : cmd.length + (as.flatMap Arg.tokens).length ≤ maxToken) :
    ∃ cmd', loop (argStep line) left (cmd, t ++ (e ++ rest)) = .ok (cmd', rest) ∧
      shapes cmd' = shapes cmd ++ as.flatMap Arg.tokens := by
  induction ht generalizing cmd with
  | @last a b hb =>
    obtain ⟨cmd', harg, hs⟩ := argNext_text line a (delimits_eol he rest) cmd
      (by simpa using hfit)
    refine ⟨cmd', loop_of_stop ?_, by simpa using hs⟩
    have hbegins := begins_arg a (e ++ rest)
    simp only [argStep, List.append_assoc]
    rw [skipSpace_blanks hb hbegins.1, endl_eq_none hbegins.2]
    simp only [harg, ok_bind]
    rw [endl_eol he]
    rfl
  | @cons a as b t hb ht ih =>
    have hcomma : Delimits (',' :: (t ++ (e ++ rest))) := ⟨rfl, rfl⟩
    rw [List.flatMap_cons, List.length_append] at hfit
    obtain ⟨cmd₁, harg, hs₁⟩ := argNext_text line a hcomma cmd (by omega)
    have hlen := congrArg List.length hs₁
    rw [List.length_append, length_shapes, length_shapes] at hlen
    obtain ⟨cmd₂, hloop, hs₂⟩ := @ih cmd₁ (by omega)
    refine ⟨cmd₂, ?_, ?_⟩
    · rw [← hloop]
      apply loop_of_next (argStep_left line)
      have hbegins := begins_arg a (',' :: (t ++ (e ++ rest)))
      simp only [argStep, List.append_assoc, List.cons_append]
      rw [skipSpace_blanks hb hbegins.1, endl_eq_none hbegins.2]
      simp only [harg, ok_bind]
      rfl
    · rw [hs₂, hs₁, List.append_assoc, List.flatMap_cons]

theorem args_blank {as : List Arg} {t : Text} {c : Char} (hc : Blank c) (ht : Args as t) :
    Args as (c :: t) := by
  cases ht with
  | last a hb => exact .last a (b := c :: _) (List.forall_mem_cons.mpr ⟨hc, hb⟩)
  | cons a hb ht => exact .cons a (b := c :: _) (List.forall_mem_cons.mpr ⟨hc, hb⟩) ht

theorem blank_ne {c : Char} (h : Blank c) : c ≠ nul := by
  rcases h with rfl | rfl <;> decide

theorem not_isBlank_eol {e : Text} (he : Eol e) (t : Text) : isBlank (deref (e ++ t)) = false := by
  rcases eol_head he t with h | h <;> rw [h] <;> rfl

/-- The head of a line that starts with blanks. -/
theorem deref_blanks {b q : Text} (hb : Blanks b) (hq : deref q ≠ nul) : deref (b ++ q) ≠ nul := by
  cases b with
  | nil => exact hq
  | cons c b => exact blank_ne (hb c (by simp))

/-- What stands behind a command name, up to the end of the line. -/
theorem rest_text (line : Nat) {as : List Arg} {r e : Text} (hr : Rest as r) (he : Eol e)
    (rest : Text) (cmd : Lexcmd)
    (hfit : cmd.length + (as.flatMap Arg.tokens).length ≤ maxToken) :
    ∃ cmd', loop (argStep line) left (cmd, r ++ (e ++ rest)) = .ok (cmd', rest) ∧
      shapes cmd' = shapes cmd ++ as.flatMap Arg.tokens := by
  cases hr with
  | none hb =>
    refine ⟨cmd, loop_of_stop ?_, by simp⟩
    simp only [argStep, skipSpace_blanks hb (not_isBlank_eol he rest), endl_eol he]
    rfl
  | args hc ht => exact argLoop_text line (args_blank hc ht) he rest hfit

theorem rest_head {as : List Arg} {r e : Text} (hr : Rest as r) (he : Eol e) (t : Text) :
    Blank (deref (r ++ (e ++ t))) ∨ deref (r ++ (e ++ t)) = '\n' ∨ deref (r ++ (e ++ t)) = ';' := by
  cases hr with
  | none hb =>
    cases r with
    | nil => exact .inr (eol_head he t)
    | cons c b => exact .inl (hb c (by simp))
  | args hc ht => exact .inl hc

/-- A line with a command is read as that command. -/
theorem lexerLine_cmd (line : Nat) (c : Cmd) {b l r e : Text} (hb : Blanks b)
    (hl : Labels c.labels l) (hr : Rest c.args r) (he : Eol e) (t : Text) :
    ∃ cmd, lexerLine line (b ++ (l ++ (c.name.text ++ (r ++ (e ++ t))))) = .ok (some cmd, t) ∧
      shapes cmd = c.tokens := by
  have hfits := c.fits
  obtain ⟨cmd₁, hlabels, hs₁⟩ := labelLoop_text line hl c.name (rest_head hr he t) []
    (by simp only [List.length_nil]; omega)
  have hlen := congrArg List.length hs₁
  simp only [length_shapes, shapes_nil, List.nil_append, List.length_append, List.length_map,
    List.length_singleton] at hlen
  obtain ⟨cmd₂, hargs, hs₂⟩ := rest_text line hr he t cmd₁ (by omega)
  have hbegins := begins_labels hl c.name (r ++ (e ++ t))
  refine ⟨cmd₂, ?_, ?_⟩
  · simp only [lexerLine]
    rw [skipSpace_blanks hb hbegins.1, endl_eq_none hbegins.2]
    simp only [hlabels, hargs, ok_bind]
    rfl
  · rw [hs₂, hs₁]
    simp [Cmd.tokens]

theorem lexerLine_blank (line : Nat) {b e : Text} (hb : Blanks b) (he : Eol e) (t : Text) :
    lexerLine line (b ++ (e ++ t)) = .ok (none, t) := by
  simp only [lexerLine]
  rw [skipSpace_blanks hb (not_isBlank_eol he t), endl_eol he]
  rfl

theorem lexer_of_line {c : Asmchip32} {cmd : Option Lexcmd} {p : Text} (hn : deref c.parse ≠ nul)
    (h : lexerLine c.line c.parse = .ok (cmd, p)) :
    lexer c = lexer { c with vcmd := c.vcmd ++ cmd.toList, parse := p, line := c.line + 1 } := by
  apply loop_of_next lexerStep_left
  rw [lexerStep, if_neg hn, h]

/-- A source of the grammar is read as its commands. -/
theorem lexer_text {cmds : List Cmd} {text : Text} (h : Layout cmds text) (c : Asmchip32)
    (hc : c.parse = text) :
    ∃ d, lexer c = .ok d ∧ d.vcmd.map shapes = c.vcmd.map shapes ++ cmds.map Cmd.tokens := by
  induction h generalizing c with
  | nil =>
    refine ⟨c, loop_of_stop ?_, by simp⟩
    rw [lexerStep, hc, if_pos deref_nil]
  | @blank cmds b e t hb he ht ih =>
    have hn : deref c.parse ≠ nul := by
      rw [hc]
      apply deref_blanks hb
      rcases eol_head he t with h | h <;> rw [h] <;> decide
    have hline := lexerLine_blank c.line hb he t
    rw [← hc] at hline
    obtain ⟨d, hd, hmap⟩ := ih { c with vcmd := c.vcmd ++ [], parse := t, line := c.line + 1 } rfl
    refine ⟨d, (lexer_of_line hn hline).trans hd, ?_⟩
    simpa using hmap
  | @cmd w cmds b l r e t hb hl hr he ht ih =>
    have hn : deref c.parse ≠ nul := by
      rw [hc]
      exact deref_blanks hb (begins_labels hl w.name _).2.1
    obtain ⟨cmd, hline, hs⟩ := lexerLine_cmd c.line w hb hl hr he t
    rw [← hc] at hline
    obtain ⟨d, hd, hmap⟩ :=
      ih { c with vcmd := c.vcmd ++ [cmd], parse := t, line := c.line + 1 } rfl
    refine ⟨d, (lexer_of_line hn hline).trans hd, ?_⟩
    simpa [hs] using hmap

/-- The lexer and the grammar: every layout of well-formed commands is read as
exactly these commands, and every entry of an accepted source is one. -/
theorem lexer_grammar :
    (∀ (cmds : List Cmd) (text : Text), Layout cmds text →
      ∃ c, lexer (.new text) = .ok c ∧ c.vcmd.map shapes = cmds.map Cmd.tokens) ∧
    ∀ (text : Text) (c : Asmchip32), lexer (.new text) = .ok c →
      ∀ cmd ∈ c.vcmd, ∃ w : Cmd, shapes cmd = w.tokens := by
  constructor
  · intro cmds text h
    obtain ⟨c, hc, hmap⟩ := lexer_text h (.new text) rfl
    exact ⟨c, hc, by simpa [Asmchip32.new] using hmap⟩
  · intro text c h
    exact lexer_ok h nofun

/-- `inc $x`. -/
def incX : Cmd where
  labels := []
  name := ⟨'i', ['n', 'c'], .inl rfl,
    List.forall_mem_cons.mpr ⟨.inl rfl, List.forall_mem_singleton.mpr (.inl rfl)⟩⟩
  args := [⟨[.ram], .name ⟨'x', [], by decide, nofun⟩⟩]
  fits := by decide

theorem lexer_grammar_inc :
    ∃ c, lexer (.new "\tinc $x;up\n".toList) = .ok c ∧ c.vcmd.map shapes = [incX.tokens] := by
  have hcomment : ∀ c ∈ ['u', 'p'], c ≠ '\n' ∧ c ≠ nul :=
    List.forall_mem_cons.mpr ⟨by decide, List.forall_mem_singleton.mpr (by decide)⟩
  exact lexer_grammar.1 [incX] _ (.cmd incX (b := ['\t']) (by simp [Blanks, Blank]) .nil
    (.args (c := ' ') (.inl rfl) (.last _ (b := []) nofun)) (.comment ['u', 'p'] hcomment) .nil)

def nameA : Ident := ⟨'a', [], .inl rfl, nofun⟩

def nameB : Ident := ⟨'b', [], .inl rfl, nofun⟩

def nameNop : Ident := ⟨'n', ['o', 'p'], .inl rfl, by simp⟩

end Asm
