import Chip32.LexerGrammar

/-!
# Token slots

The lexer writes a token to the next slot of its command without a look at how
many there are. It stays inside the slots exactly when no line that it comes to
begins a token behind sixty-four others.
-/
namespace Asm

open Grammar Runs

/-- A character that begins a token of an argument. -/
def StartsToken (x : Char) : Prop :=
  (prefixType x).isSome ∨ x = '?' ∨ (x = '-' || isDigit x) = true ∨ x = '\'' ∨ x = '"' ∨
    (('a' ≤ x && x ≤ 'z') || ('A' ≤ x && x ≤ 'Z') || x = '_') = true

instance : DecidablePred StartsToken := fun _ => inferInstanceAs (Decidable (_ ∨ _))

/-- Arguments, each after any blanks and with a comma behind it. -/
inductive Commas : List Arg → Text → Prop
  | nil : Commas [] []
  | cons (a : Arg) {as : List Arg} {b t : Text} (hb : Blanks b) (ht : Commas as t) :
      Commas (a :: as) (b ++ (a.text ++ ',' :: t))

/-- `n` tokens are on the line when a text of arguments begins one behind the last slot. -/
def Overfills (n : Nat) (p : Text) : Prop :=
  ∃ (as : List Arg) (u b : Text) (sigils : List Sigil) (x : Char) (q : Text),
    p = u ++ (b ++ (sigils.map Sigil.char ++ x :: q)) ∧ Commas as u ∧ Blanks b ∧ StartsToken x ∧
      maxToken ≤ n + (as.flatMap Arg.tokens).length + sigils.length

/-- A line with too many labels, or with too many tokens before another one. -/
def Overfull (p : Text) : Prop :=
  ∃ b rest, p = b ++ rest ∧ Blanks b ∧
    ((∃ is l q, rest = l ++ q ∧ Labels is l ∧ maxToken ≤ is.length) ∨
      ∃ (is : List Ident) (i : Ident) (l r : Text), rest = l ++ (i.text ++ r) ∧ Labels is l ∧
        Blank (deref r) ∧ Overfills (is.length + 1) r)

/-- The token behind the last slot. -/
abbrev outside {α : Type} : Lex α := .error (.fault .tokenBounds)

section Tokens

variable {line : Nat} {type : Tktype} {next : Text → Lex Text} {p : Text} {cmd : Lexcmd}

theorem putToken_outside (h : maxToken ≤ cmd.length) : putToken line type next p cmd = outside :=
  if_neg (by omega)

theorem tokenWord_inside {wrong : Char → Prop} [DecidablePred wrong] {error : String}
    {inside : Char → Bool} : tokenWord wrong error inside p ≠ outside := by
  simp only [tokenWord]
  split_ifs <;> simp [complain]

theorem tokenQuote_inside : tokenQuote p ≠ outside := by
  simp only [tokenQuote]
  split_ifs <;> simp [complain]

theorem putToken_error (hnext : next p ≠ outside) (h : putToken line type next p cmd = outside) :
    maxToken ≤ cmd.length := by
  unfold putToken at h
  split_ifs at h with hlen
  · rcases bind_eq_error.mp h with h | ⟨_, _, h⟩
    · exact absurd h hnext
    · cases h
  · omega

/-- An argument that begins a token behind the last slot. -/
theorem argNext_outside {x : Char} (hx : StartsToken x) (q : Text) (sigils : List Sigil)
    (h : maxToken ≤ cmd.length + sigils.length) :
    argNext line (sigils.map Sigil.char ++ x :: q) cmd = outside := by
  induction sigils generalizing cmd with
  | nil =>
    have hput : ∀ {type next p}, putToken line type next p cmd = outside :=
      fun {_ _ _} => putToken_outside (by simpa using h)
    simp only [List.map_nil, List.nil_append, argNext]
    cases hp : prefixType x with
    | some type => simp only [hput, error_bind]
    | none =>
      simp only [hput]
      unfold StartsToken at hx
      rw [hp] at hx
      split_ifs with h₁ h₂ h₃ h₄ h₅ <;> try rfl
      rcases hx with hx | hx | hx | hx | hx | hx
      · cases hx
      · exact absurd hx h₁
      · exact absurd hx h₂
      · exact absurd hx h₃
      · exact absurd hx h₄
      · exact absurd hx h₅
  | cons s sigils ih =>
    simp only [List.map_cons, List.cons_append, argNext, prefixType_sigil]
    by_cases hlen : cmd.length < maxToken
    · rw [putToken, if_pos hlen]
      simp only [tokenOne, ok_bind, pure_ok]
      exact ih (by simp only [List.length_append, List.length_cons] at h ⊢; omega)
    · rw [putToken_outside (by omega), error_bind]

/-- Where an argument is outside, it has begun a token behind the last slot. -/
theorem argNext_begins (h : argNext line p cmd = outside) :
    ∃ (sigils : List Sigil) (x : Char) (q : Text), p = sigils.map Sigil.char ++ x :: q ∧
      StartsToken x ∧ maxToken ≤ cmd.length + sigils.length := by
  induction p generalizing cmd with
  | nil => cases h
  | cons c p ih =>
    cases hp : prefixType c with
    | some type =>
      simp only [argNext, hp] at h
      have hstart : StartsToken c := .inl (by rw [hp]; rfl)
      rcases bind_eq_error.mp h with h | ⟨r, hput, h⟩
      · exact ⟨[], c, p, rfl, hstart, putToken_error (by simp [tokenOne]) h⟩
      · obtain ⟨_, _, hcmd⟩ := putToken_iff.mp hput
        obtain ⟨sigils, x, q, rfl, hx, hlen⟩ := ih h
        obtain ⟨s, rfl, _⟩ := exists_sigil hp
        refine ⟨s :: sigils, x, q, rfl, hx, ?_⟩
        rw [hcmd, List.length_append, List.length_singleton] at hlen
        rw [List.length_cons]
        omega
    | none =>
      have hbegins : ∀ {type next}, next (c :: p) ≠ outside → StartsToken c →
          putToken line type next (c :: p) cmd = outside →
          ∃ (sigils : List Sigil) (x : Char) (q : Text), c :: p = sigils.map Sigil.char ++ x :: q ∧
            StartsToken x ∧ maxToken ≤ cmd.length + sigils.length :=
        fun hnext hstart h => ⟨[], c, p, rfl, hstart, putToken_error hnext h⟩
      simp only [argNext, hp] at h
      split_ifs at h with h₁ h₂ h₃ h₄ h₅
      · exact hbegins (by simp [tokenOne]) (.inr (.inl h₁)) h
      · exact hbegins tokenWord_inside (.inr (.inr (.inl h₂))) h
      · exact hbegins tokenQuote_inside (.inr (.inr (.inr (.inl h₃)))) h
      · exact hbegins tokenQuote_inside (.inr (.inr (.inr (.inr (.inl h₄))))) h
      · exact hbegins tokenWord_inside (.inr (.inr (.inr (.inr (.inr h₅))))) h
      · cases h

/-- The sigils of an argument and the first character behind them. -/
theorem arg_text (a : Arg) (q : Text) : ∃ x q', StartsToken x ∧
    a.text ++ q = a.sigils.map Sigil.char ++ x :: q' := by
  obtain ⟨sigils, atom⟩ := a
  have hatom : ∃ x t, StartsToken x ∧ atom.text = x :: t := by
    cases atom with
    | auto => exact ⟨'?', [], by decide, rfl⟩
    | number n =>
      refine ⟨n.head, n.tail, .inr (.inr (.inl ?_)), rfl⟩
      rcases n.head_ok with h | h
      · simp [isDigit_iff.mpr h]
      · simp [h]
    | name i => exact ⟨i.head, i.tail, .inr (.inr (.inr (.inr (.inr (letter_iff.mpr i.head_ok))))), rfl⟩
    | char b => exact ⟨'\'', b.text ++ ['\''], by decide, rfl⟩
    | str b => exact ⟨'"', b.text ++ ['"'], by decide, rfl⟩
  obtain ⟨x, t, hx, ht⟩ := hatom
  exact ⟨x, t ++ q, hx, by simp [Arg.text, ht]⟩

theorem begins_startsToken {x : Char} (hx : StartsToken x) : Begins x := by
  rcases hx with hx | rfl | hx | rfl | rfl | hx
  · obtain ⟨type, hx⟩ := Option.isSome_iff_exists.mp hx
    obtain ⟨s, rfl, _⟩ := exists_sigil hx
    cases s <;> decide
  · decide
  · apply begins_of_isAlphanum
    rcases inInteger_iff.mp (by rw [inInteger, Bool.or_comm]; exact hx) with h | h
    · exact .inl (by simp [Char.isAlphanum, h])
    · exact .inr (.inr h)
  · decide
  · decide
  · apply begins_of_isAlphanum
    rcases letter_iff.mp hx with h | h
    · exact .inl (by simp [Char.isAlphanum, h])
    · exact .inr (.inl h)

theorem begins_sigils {x : Char} (hx : StartsToken x) (q : Text) (sigils : List Sigil) :
    Begins (deref (sigils.map Sigil.char ++ x :: q)) := by
  cases sigils with
  | nil => exact begins_startsToken hx
  | cons s sigils => exact begins_startsToken (.inl (by simp [prefixType_sigil]))

end Tokens

section Lines

variable {line : Nat} {cmd : Lexcmd} {p : Text} {s t : Lexcmd × Text}

theorem labelLoop_full (h : maxToken ≤ cmd.length) :
    loop (labelStep line) left (cmd, p) = outside :=
  loop_of_error (by rw [labelStep, if_neg (by simp only; omega)])

/-- Too many labels. -/
theorem labelLoop_outside {is : List Ident} {l : Text} (hl : Labels is l) (q : Text)
    (h : maxToken ≤ cmd.length + is.length) :
    loop (labelStep line) left (cmd, l ++ q) = outside := by
  induction hl generalizing cmd with
  | nil => exact labelLoop_full (by simpa using h)
  | @cons i is b t hb ht ih =>
    by_cases hlen : cmd.length < maxToken
    · have htext : i.text ++ ':' :: (b ++ t) ++ q = i.text ++ ':' :: (b ++ (t ++ q)) := by simp
      have hstep : labelStep line (cmd, i.text ++ ':' :: (b ++ t) ++ q) = .ok (.next
          (cmd ++ [⟨line, .label, i.text ++ ':' :: (b ++ (t ++ q)), ':' :: (b ++ (t ++ q))⟩],
            skipSpace (b ++ (t ++ q)))) := by
        simp only [labelStep, htext]
        rw [if_pos hlen, tokenNameNext_iff.mpr ⟨i, rfl, rfl⟩, ok_bind, if_pos (deref_cons _ _)]
        rfl
      rw [loop_of_next (labelStep_left line) hstep]
      cases ht with
      | nil =>
        apply labelLoop_full
        simpa using h
      | cons j hb' ht' =>
        rw [skipSpace_blanks hb]
        · exact ih (by simp only [List.length_append, List.length_cons, List.length_nil] at h ⊢; omega)
        · rw [List.append_assoc]
          exact (begins_ident j _).1
    · exact labelLoop_full (by omega)

/-- Too many tokens of arguments. -/
theorem argLoop_outside {as : List Arg} {u : Text} (hu : Commas as u) {b : Text} (hb : Blanks b)
    {x : Char} (hx : StartsToken x) (q : Text) (sigils : List Sigil)
    (h : maxToken ≤ cmd.length + (as.flatMap Arg.tokens).length + sigils.length) :
    loop (argStep line) left (cmd, u ++ (b ++ (sigils.map Sigil.char ++ x :: q))) = outside := by
  induction hu generalizing cmd with
  | nil =>
    have hbegins := begins_sigils hx q sigils
    apply loop_of_error
    simp only [argStep, List.nil_append]
    rw [skipSpace_blanks hb hbegins.1, endl_eq_none hbegins.2]
    simp only [argNext_outside hx q sigils (by simpa using h), error_bind]
  | @cons a as b' t hb' ht ih =>
    have hbegins := begins_arg a (',' :: (t ++ (b ++ (sigils.map Sigil.char ++ x :: q))))
    by_cases hlen : cmd.length + a.tokens.length ≤ maxToken
    · obtain ⟨cmd₁, harg, hs₁⟩ := argNext_text line a
        (q := ',' :: (t ++ (b ++ (sigils.map Sigil.char ++ x :: q)))) ⟨rfl, rfl⟩ cmd hlen
      have hlen₁ := congrArg List.length hs₁
      rw [List.length_append, length_shapes, length_shapes] at hlen₁
      rw [List.flatMap_cons, List.length_append] at h
      rw [← @ih cmd₁ (by omega)]
      apply loop_of_next (argStep_left line)
      simp only [argStep, List.append_assoc, List.cons_append]
      rw [skipSpace_blanks hb' hbegins.1, endl_eq_none hbegins.2]
      simp only [harg, ok_bind]
      rfl
    · obtain ⟨y, q', hy, htext⟩ := arg_text a (',' :: (t ++ (b ++ (sigils.map Sigil.char ++ x :: q))))
      have hout : argNext line (a.sigils.map Sigil.char ++ y :: q') cmd = outside :=
        argNext_outside hy q' a.sigils (by
          simp only [Arg.tokens, List.length_append, List.length_map, List.length_singleton] at hlen
          omega)
      apply loop_of_error
      simp only [argStep, List.append_assoc, List.cons_append]
      rw [skipSpace_blanks hb' hbegins.1, endl_eq_none hbegins.2, htext]
      simp only [hout, error_bind]

theorem labelStep_next (h : labelStep line s = .ok (.next t)) :
    ∃ (i : Ident) (b : Text), s.2 = i.text ++ ':' :: (b ++ t.2) ∧ Blanks b ∧
      t.1.length = s.1.length + 1 := by
  obtain ⟨i, q, hs, _, ⟨hq, ho⟩ | ho⟩ := labelStep_ok h
  · obtain ⟨b, hb, hblanks⟩ := exists_blanks q.tail
    cases ho
    refine ⟨i, b, ?_, hb, by simp⟩
    rw [hs]
    cases q with
    | nil => cases hq
    | cons c q =>
      rw [deref_cons] at hq
      rw [hq]
      exact congrArg (i.text ++ ':' :: ·) hblanks
  · cases ho

/-- The labels and the name that the loop has read. -/
theorem labelLoop_reads (h : loop (labelStep line) left s = .ok t) :
    ∃ (is : List Ident) (i : Ident) (l : Text), s.2 = l ++ (i.text ++ t.2) ∧ Labels is l ∧
      t.1.length = s.1.length + is.length + 1 ∧
      (Blank (deref t.2) ∨ deref t.2 = '\n' ∨ deref t.2 = ';') := by
  refine loop_ok (P := fun s t => ∃ (is : List Ident) (i : Ident) (l : Text),
    s.2 = l ++ (i.text ++ t.2) ∧ Labels is l ∧ t.1.length = s.1.length + is.length + 1 ∧
      (Blank (deref t.2) ∨ deref t.2 = '\n' ∨ deref t.2 = ';')) (labelStep_left line) ?_ ?_ h
  · intro s t h
    obtain ⟨i, hs, hlen, hsep⟩ := labelStep_stop h
    exact ⟨[], i, [], hs, .nil, hlen, hsep⟩
  · rintro s t u h ⟨is, i, l, ht, hl, hlen, hsep⟩
    obtain ⟨j, b, hs, hb, hlen'⟩ := labelStep_next h
    refine ⟨j :: is, i, j.text ++ ':' :: (b ++ l), ?_, .cons j hb hl, ?_, hsep⟩
    · rw [hs, ht]
      simp
    · rw [List.length_cons]
      omega

/-- Where the loop over the labels is outside, it has read too many. -/
theorem labelLoop_begins (h : loop (labelStep line) left s = outside) :
    ∃ is l q, s.2 = l ++ q ∧ Labels is l ∧ maxToken ≤ s.1.length + is.length := by
  refine loop_error (P := fun s => ∃ is l q, s.2 = l ++ q ∧ Labels is l ∧
    maxToken ≤ s.1.length + is.length) (labelStep_left line) ?_ ?_ h
  · intro s h
    refine ⟨[], [], s.2, rfl, .nil, ?_⟩
    unfold labelStep at h
    split_ifs at h with hlen
    · rcases bind_eq_error.mp h with h | ⟨q, _, h⟩
      · exact absurd h tokenWord_inside
      · split_ifs at h <;> cases h
    · simpa using hlen
  · rintro s t h ⟨is, l, q, ht, hl, hlen⟩
    obtain ⟨i, b, hs, hb, hlen'⟩ := labelStep_next h
    refine ⟨i :: is, i.text ++ ':' :: (b ++ l), q, ?_, .cons i hb hl, ?_⟩
    · rw [hs, ht]
      simp
    · rw [List.length_cons]
      omega

theorem argStep_next (h : argStep line s = .ok (.next t)) :
    ∃ (a : Arg) (b : Text), s.2 = b ++ (a.text ++ ',' :: t.2) ∧ Blanks b ∧
      t.1.length = s.1.length + a.tokens.length := by
  obtain ⟨b, hb, hblanks⟩ := exists_blanks s.2
  obtain ⟨a, ha, hs, _⟩ := argNext_ok (argNext_of_next h)
  refine ⟨a, b, ?_, hb, by simpa using congrArg List.length hs⟩
  rw [← ha]
  exact hblanks

/-- Where the loop over the arguments is outside, the line is overfull. -/
theorem argLoop_begins (h : loop (argStep line) left s = outside) : Overfills s.1.length s.2 := by
  refine loop_error (P := fun s => Overfills s.1.length s.2) (argStep_left line) ?_ ?_ h
  · intro s h
    obtain ⟨b, hb, hblanks⟩ := exists_blanks s.2
    simp only [argStep] at h
    split at h
    · cases h
    · rcases bind_eq_error.mp h with h | ⟨r, _, h⟩
      · obtain ⟨sigils, x, q, hp, hx, hlen⟩ := argNext_begins h
        exact ⟨[], [], b, sigils, x, q, by rw [hblanks, hp]; rfl, .nil, hb, hx, by simpa using hlen⟩
      · split at h
        · cases h
        · split_ifs at h <;> cases h
  · rintro s t h ⟨as, u, b, sigils, x, q, ht, hu, hb, hx, hlen⟩
    obtain ⟨a, b', hs, hb', hlen'⟩ := argStep_next h
    refine ⟨a :: as, b' ++ (a.text ++ ',' :: u), b, sigils, x, q, ?_, .cons a hb' hu, hb, hx, ?_⟩
    · rw [hs, ht]
      simp
    · rw [List.flatMap_cons, List.length_append]
      omega

/-- What follows a name and is blank, or begins with arguments, is no end of a line. -/
theorem blank_of_overfills {n : Nat} (h : Overfills n p)
    (hsep : Blank (deref p) ∨ deref p = '\n' ∨ deref p = ';') : Blank (deref p) := by
  obtain ⟨as, u, b, sigils, x, q, rfl, hu, hb, hx, _⟩ := h
  have hhead : ∀ (b q : Text), Blanks b → Begins (deref q) → Blank (deref (b ++ q)) ∨
      Begins (deref (b ++ q)) := by
    intro b q hb hq
    cases b with
    | nil => exact .inr hq
    | cons c b => exact .inl (hb c (by simp))
  have hbegins : Blank (deref (u ++ (b ++ (sigils.map Sigil.char ++ x :: q)))) ∨
      Begins (deref (u ++ (b ++ (sigils.map Sigil.char ++ x :: q)))) := by
    cases hu with
    | nil => exact hhead b _ hb (begins_sigils hx q sigils)
    | cons a hb' ht =>
      simp only [List.append_assoc, List.cons_append]
      exact hhead _ _ hb' (begins_arg a _)
  rcases hbegins with h | h
  · exact h
  · rcases hsep with hsep | hsep | hsep
    · exact hsep
    · exact absurd hsep h.2.2.1
    · exact absurd hsep h.2.2.2

/-- A line is outside its slots exactly when it is overfull. -/
theorem lexerLine_outside : lexerLine line p = outside ↔ Overfull p := by
  constructor
  · intro h
    obtain ⟨b, hb, hblanks⟩ := exists_blanks p
    simp only [lexerLine] at h
    split at h
    · cases h
    · refine ⟨b, skipSpace p, hblanks, hb, ?_⟩
      rcases bind_eq_error.mp h with h | ⟨t, ht, h⟩
      · obtain ⟨is, l, q, hp, hl, hlen⟩ := labelLoop_begins h
        exact .inl ⟨is, l, q, hp, hl, by simpa using hlen⟩
      · obtain ⟨is, i, l, hp, hl, hlen, hsep⟩ := labelLoop_reads ht
        rcases bind_eq_error.mp h with h | ⟨_, _, h⟩
        · have hover := argLoop_begins h
          rw [hlen, List.length_nil, Nat.zero_add] at hover
          exact .inr ⟨is, i, l, t.2, hp, hl, blank_of_overfills hover hsep, hover⟩
        · cases h
  · rintro ⟨b, rest, rfl, hb, ⟨is, l, q, rfl, hl, hlen⟩ | ⟨is, i, l, r, rfl, hl, hr, hover⟩⟩
    · have hbegins : Begins (deref (l ++ q)) := by
        cases hl with
        | nil => exact absurd hlen (by decide)
        | cons i hb' ht =>
          rw [List.append_assoc]
          exact begins_ident i _
      simp only [lexerLine]
      rw [skipSpace_blanks hb hbegins.1, endl_eq_none hbegins.2]
      have hout : loop (labelStep line) left ([], l ++ q) = outside :=
        labelLoop_outside hl q (by simpa using hlen)
      simp only [hout, error_bind]
    · have hbegins := begins_labels hl i r
      simp only [lexerLine]
      rw [skipSpace_blanks hb hbegins.1, endl_eq_none hbegins.2]
      simp only
      by_cases hfit : is.length < maxToken
      · obtain ⟨cmd, hloop, hs⟩ := labelLoop_text line hl i (.inl hr) [] (by simpa using hfit)
        have hlen := congrArg List.length hs
        simp only [length_shapes, shapes_nil, List.nil_append, List.length_append, List.length_map,
          List.length_singleton] at hlen
        obtain ⟨as, u, b', sigils, x, q, rfl, hu, hb', hx, hover⟩ := hover
        have hout : loop (argStep line) left
            (cmd, u ++ (b' ++ (sigils.map Sigil.char ++ x :: q))) = outside :=
          argLoop_outside hu hb' hx q sigils (by omega)
        simp only [hloop, ok_bind, hout, error_bind]
      · have hout : loop (labelStep line) left ([], l ++ (i.text ++ r)) = outside :=
          labelLoop_outside hl (i.text ++ r) (by simpa using hfit)
        simp only [hout, error_bind]

theorem ne_nul_of_overfull (h : Overfull p) : deref p ≠ nul := by
  obtain ⟨b, rest, rfl, hb, ⟨is, l, q, rfl, hl, hlen⟩ | ⟨is, i, l, r, rfl, hl, _⟩⟩ := h
  · cases hl with
    | nil => exact absurd hlen (by decide)
    | cons i hb' ht =>
      rw [List.append_assoc]
      exact deref_blanks hb (begins_ident i _).2.1
  · exact deref_blanks hb (begins_labels hl i r).2.1

theorem lexerStep_outside {c : Asmchip32} :
    lexerStep c = .error (.fault .tokenBounds) ↔ Overfull c.parse := by
  unfold lexerStep
  split_ifs with hn
  · exact iff_of_false (fun h => nomatch h) fun h => ne_nul_of_overfull h hn
  · rw [← @lexerLine_outside c.line]
    cases lexerLine c.line c.parse with
    | ok r => simp
    | error e => cases e <;> simp

end Lines

/-- The lexer writes only to the slots of its commands exactly when no line that it
comes to begins a token behind sixty-four others. -/
theorem slots_bounded_iff (code : Text) : lexer (.new code) ≠ .error (.fault .tokenBounds) ↔
    ∀ i d, iterate lexerStep i (.new code) = .ok (.next d) → ¬ Overfull d.parse := by
  rw [lexer, loop_ne_error lexerStep_left]
  exact forall_congr' fun i => forall_congr' fun d => imp_congr_right fun _ =>
    not_congr lexerStep_outside

/-- A line with a command name and sixty-four arguments. -/
def manyArgs : Text := "nop ".toList ++ (List.replicate 63 "0,".toList).flatten ++ "0\n".toList

/-- The last argument goes to the slot behind the last one. -/
theorem manyArgs_outside : lexer (.new manyArgs) = .error (.fault .tokenBounds) := by
  decide +kernel

end Asm
