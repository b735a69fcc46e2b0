import Chip32.LexerGrammar

/-!
# Names spelt anew

A source in which some names are replaced by others, and nothing else, is read as the
same tokens with the new names for the old ones.
-/
namespace Asm

open Runs Grammar

/-- A token and the text to put in its place. -/
abbrev Spelling := Lextoken × List Char

/-- The text from `p` on with the new texts of these tokens, which stand in it in their order. -/
def respell : Text → List Spelling → Text
  | p, [] => p
  | p, (tk, t) :: xs => p.take (p.length - tk.start.length) ++ (t ++ respell tk.stop xs)

/-- The type and the new text. -/
def Spelling.shape (x : Spelling) : Tktype × List Char := (x.1.type, x.2)

/-- A name may become any other name; every other token stays as it is. -/
def Spelling.Fair (x : Spelling) : Prop :=
  x.2 = x.1.text ∨ x.1.type = .name ∧ ∃ i : Ident, x.2 = i.text

/-- `p'` is `p` with these tokens spelt anew. -/
inductive Respelt : Text → List Spelling → Text → Prop
  | done : Respelt [] [] []
  | skip (c : Char) {p p' : Text} {xs : List Spelling} (h : Respelt p xs p') :
      Respelt (c :: p) xs (c :: p')
  | keep (line : Nat) (type : Tktype) (t : Text) {q q' : Text} {xs : List Spelling}
      (h : Respelt q xs q') : Respelt (t ++ q) ((⟨line, type, t ++ q, q⟩, t) :: xs) (t ++ q')
  | name (line : Nat) (i i' : Ident) {q q' : Text} {xs : List Spelling} (h : Respelt q xs q') :
      Respelt (i.text ++ q) ((⟨line, .name, i.text ++ q, q⟩, i'.text) :: xs) (i'.text ++ q')

theorem respelt_skips (b : Text) {p p' : Text} {xs : List Spelling} (h : Respelt p xs p') :
    Respelt (b ++ p) xs (b ++ p') := by
  induction b with
  | nil => exact h
  | cons c b ih => exact ih.skip c

theorem respelt_refl (p : Text) : Respelt p [] p := by
  simpa using respelt_skips p .done

theorem respelt_starts {p p' : Text} {xs : List Spelling} (h : Respelt p xs p') :
    ∀ x ∈ xs.head?, x.1.start.length ≤ p.length := by
  induction h with
  | done => nofun
  | skip c h ih => exact fun x hx => (ih x hx).trans (Nat.le_succ _)
  | keep | name =>
    rintro x ⟨⟩
    exact le_rfl

/-- There is only one such text. -/
theorem respelt_eq {p p' : Text} {xs : List Spelling} (h : Respelt p xs p') :
    p' = respell p xs := by
  induction h with
  | done => rfl
  | @skip c p p' xs h ih =>
    cases xs with
    | nil => rw [ih, respell, respell]
    | cons x xs =>
      have hle := respelt_starts h x rfl
      rw [ih, respell, respell, List.length_cons, Nat.succ_sub hle, List.take_succ_cons,
        List.cons_append]
  | keep | name =>
    rw [respell, Nat.sub_self, List.take_zero, List.nil_append]
    congr 2

/-- What is no part of a name stays where it is. -/
theorem respelt_deref {p p' : Text} {xs : List Spelling} (h : Respelt p xs p')
    (hn : inName (deref p) = false) : deref p' = deref p := by
  induction h with
  | done => rfl
  | skip => rfl
  | keep line type t h ih =>
    cases t with
    | nil => exact ih hn
    | cons c t => rfl
  | name line i i' h ih =>
    have hname : inName i.head = true := by
      rw [inName_iff]
      exact i.head_ok.imp_left fun h => by simp [Char.isAlphanum, h]
    exact absurd hname (by simpa [Word.text] using hn)

theorem respelt_ne_nul {p p' : Text} {xs : List Spelling} (h : Respelt p xs p')
    (hn : deref p ≠ nul) : deref p' ≠ nul := by
  induction h with
  | done => exact absurd rfl hn
  | skip => exact hn
  | keep line type t h ih =>
    cases t with
    | nil => exact ih hn
    | cons c t => exact hn
  | name line i i' h ih => exact (begins_ident i' _).2.1

theorem endl_nul {q : Text} (h : deref q = nul) : endl q = some q := by
  cases q with
  | nil => rfl
  | cons c q =>
    cases h
    rfl

/-- A comment up to what ends it. -/
theorem endl_comment {b q : Text} (hb : ∀ c ∈ b, (c ≠ nul && c ≠ '\n') = true)
    (hq : deref q = nul ∨ deref q = '\n') :
    endl (';' :: (b ++ q)) = some (if deref q ≠ nul then q.tail else q) := by
  have hskip : skipComment (';' :: (b ++ q)) = q := by
    refine dropWhile_run hb ?_
    rcases hq with hq | hq <;> rw [hq] <;> rfl
  simp only [endl, hskip]

/-- Where `a32_endl` stops does not depend on the names behind. -/
theorem endl_respelt {p q q' : Text} {xs : List Spelling} (h : endl p = some q)
    (hq : Respelt q xs q') : ∃ p', Respelt p xs p' ∧ endl p' = some q' := by
  have hend : deref q = nul → deref q' = nul := fun hn =>
    (respelt_deref hq (by rw [hn]; rfl)).trans hn
  unfold endl at h
  split at h
  · cases h
    exact ⟨q', hq, endl_nul (hend rfl)⟩
  · cases h
    exact ⟨q', hq, endl_nul (hend rfl)⟩
  next p =>
    cases h
    exact ⟨'\n' :: q', hq.skip _, rfl⟩
  next p =>
    obtain ⟨b, hp, hb⟩ := exists_run (fun c => c ≠ nul && c ≠ '\n') p
    have hskip : skipComment (';' :: p) = skipComment p := rfl
    have hstop : deref (skipComment p) = nul ∨ deref (skipComment p) = '\n' := by
      have := deref_dropWhile (p := fun c => c ≠ nul && c ≠ '\n') rfl p
      simpa [skipComment, or_iff_not_imp_left] using this
    change p = b ++ skipComment p at hp
    simp only [hskip, Option.some.injEq] at h
    split_ifs at h with hn
    · have hnl : skipComment p = '\n' :: q := by
        have hhead := hstop.resolve_left hn
        cases hs : skipComment p with
        | nil => rw [hs] at hhead; cases hhead
        | cons c r =>
          rw [hs] at h hhead
          rw [← h, ← hhead]
          rfl
      rw [hnl] at hp
      refine ⟨';' :: (b ++ '\n' :: q'), ?_, endl_comment hb (.inr rfl)⟩
      rw [hp]
      exact (respelt_skips b (hq.skip _)).skip _
    · subst h
      refine ⟨';' :: (b ++ q'), ?_, ?_⟩
      · rw [hp]
        exact (respelt_skips b hq).skip _
      · rw [endl_comment hb (.inl (hend (not_not.mp hn)))]
        simp [hend (not_not.mp hn)]
  · cases h

/-- The end of a line stands apart from an argument in front of it. -/
theorem endl_head {p q : Text} (h : endl p = some q) : deref p = nul ∨ deref p = '\n' ∨ deref p = ';' := by
  by_contra hn
  simp only [not_or] at hn
  rw [endl_eq_none hn] at h
  cases h

/-- An atom leaves one token. -/
theorem argNext_single {line : Nat} {c : Char} {p : Text} {cmd : Lexcmd} {r : Lexcmd × Text}
    (hp : prefixType c = none) (h : argNext line (c :: p) cmd = .ok r) :
    ∃ type, r.1 = cmd ++ [⟨line, type, c :: p, r.2⟩] := by
  simp only [argNext, hp] at h
  split_ifs at h
  all_goals first
    | exact absurd h complain_ne_ok
    | exact ⟨_, (putToken_iff.mp h).2.2⟩

/-- From `s` to `t` a part of the lexer reads tokens, and it does so from every text
that differs from this one in its names, if what follows is as it wants it. -/
def Rereads (follow : Text → Prop) (f : Lexcmd × Text → Lex (Lexcmd × Text))
    (s t : Lexcmd × Text) : Prop :=
  ∃ new, t.1 = s.1 ++ new ∧ ∀ xs : List Spelling, xs.map Prod.fst = new → (∀ x ∈ xs, x.Fair) →
    ∀ ys q, Respelt t.2 ys q → follow q → ∃ p, Respelt s.2 (xs ++ ys) p ∧
      ∀ cmd : Lexcmd, cmd.length = s.1.length → ∃ cmd', f (cmd, p) = .ok (cmd', q) ∧
        shapes cmd' = shapes cmd ++ xs.map Spelling.shape

/-- One token, spelt anew. -/
theorem atom_respelt {line : Nat} {a : Atom} {q q' : Text} {t : List Char} {ys : List Spelling}
    (hfair : Spelling.Fair (⟨line, a.type, a.text ++ q, q⟩, t)) (hq : Respelt q ys q') :
    ∃ a' : Atom, a'.type = a.type ∧ a'.text = t ∧
      Respelt (a.text ++ q) ((⟨line, a.type, a.text ++ q, q⟩, t) :: ys) (a'.text ++ q') := by
  rcases hfair with ht | ⟨htype, i, ht⟩
  · simp only [Lextoken.text_mk] at ht
    subst ht
    exact ⟨a, rfl, rfl, .keep line a.type a.text hq⟩
  · cases a with
    | name j =>
      simp only at ht
      subst ht
      exact ⟨.name i, rfl, rfl, .name line j i hq⟩
    | _ => cases htype

theorem argNext_rereads_atom {line : Nat} {c : Char} {p : Text} {cmd : Lexcmd}
    {r : Lexcmd × Text} (hp : prefixType c = none) (h : argNext line (c :: p) cmd = .ok r) :
    Rereads Delimits (fun s => argNext line s.2 s.1) (cmd, c :: p) r := by
  obtain ⟨a, ha, hs, hfit⟩ := argNext_atom hp h
  obtain ⟨type, hr⟩ := argNext_single hp h
  have htype : type = a.type := by
    rw [hr, ha, shapes_append, shapes_single, List.append_cancel_left_eq] at hs
    simpa using hs
  subst htype
  rw [hr, List.length_append, List.length_singleton] at hfit
  refine ⟨_, hr, ?_⟩
  intro xs hxs hfair ys q hq hdelim
  obtain ⟨⟨tk, t⟩, rfl, rfl⟩ := List.map_eq_singleton_iff.mp hxs
  have hfair := hfair _ (List.mem_singleton_self _)
  rw [ha] at hfair ⊢
  obtain ⟨a', htype, htext, hp'⟩ := atom_respelt hfair hq
  refine ⟨_, hp', fun cmd' hlen => ?_⟩
  have hlt : cmd'.length < maxToken := by
    rw [hlen]
    exact hfit
  obtain ⟨cmd'', harg, hs'⟩ := argNext_atom_text line a' hdelim hlt
  refine ⟨cmd'', harg, ?_⟩
  rw [hs', htype, htext]
  rfl

/-- A sigil is read, and then what follows it. -/
theorem argNext_rereads_sigil {line : Nat} {s : Sigil} {p : Text} {cmd : Lexcmd}
    {r : Lexcmd × Text} (hp : prefixType s.char = some s.type)
    (h : argNext line (s.char :: p) cmd = .ok r)
    (ih : ∀ {cmd : Lexcmd} {r : Lexcmd × Text}, argNext line p cmd = .ok r →
      Rereads Delimits (fun s => argNext line s.2 s.1) (cmd, p) r) :
    Rereads Delimits (fun s => argNext line s.2 s.1) (cmd, s.char :: p) r := by
  simp only [argNext, hp] at h
  obtain ⟨r', hput, hr⟩ := bind_eq_ok.mp h
  obtain ⟨hfit, hone, hr'⟩ := putToken_iff.mp hput
  have hstop : r'.2 = p := (Except.ok.inj hone).symm
  obtain ⟨new, hnew, hread⟩ := ih hr
  rw [hr', hstop, List.append_assoc] at hnew
  refine ⟨_, hnew, ?_⟩
  intro xs hxs hfair ys q hq hdelim
  obtain ⟨⟨tk, t⟩, xs, rfl, rfl, rfl⟩ := List.map_eq_cons_iff.mp hxs
  obtain ⟨hsigil, htail⟩ := List.forall_mem_cons.mp hfair
  have ht : t = [s.char] := by
    rcases hsigil with ht | ⟨htype, _⟩
    · exact ht.trans (Lextoken.text_mk line s.type [s.char] p)
    · cases s <;> cases htype
  subst ht
  obtain ⟨p', hp', hread⟩ := hread xs rfl htail ys q hq hdelim
  refine ⟨s.char :: p', .keep line s.type [s.char] hp', fun cmd' hlen => ?_⟩
  have hlt : cmd'.length < maxToken := by
    rw [hlen]
    exact hfit
  have hone' : tokenOne ([s.char] ++ p') = .ok p' := rfl
  obtain ⟨cmd₁, hput₁, hs₁⟩ := putToken_text line s.type hlt hone'
  have hlen₁ : cmd₁.length = r'.1.length := by
    have := congrArg List.length hs₁
    rw [length_shapes, List.length_append, length_shapes, hlen] at this
    rw [this, hr', List.length_append]
    rfl
  obtain ⟨cmd'', harg, hs'⟩ := hread cmd₁ hlen₁
  refine ⟨cmd'', ?_, ?_⟩
  · rw [← harg]
    simp only [argNext, hp, List.cons_append, List.nil_append] at hput₁ ⊢
    rw [hput₁]
    rfl
  · rw [hs', hs₁, List.append_assoc]
    rfl

theorem argNext_rereads {line : Nat} {p : Text} {cmd : Lexcmd} {r : Lexcmd × Text}
    (h : argNext line p cmd = .ok r) :
    Rereads Delimits (fun s => argNext line s.2 s.1) (cmd, p) r := by
  induction p generalizing cmd r with
  | nil => exact absurd h complain_ne_ok
  | cons c p ih =>
    cases hp : prefixType c with
    | none => exact argNext_rereads_atom hp h
    | some type =>
      obtain ⟨s, rfl, rfl⟩ := exists_sigil hp
      exact argNext_rereads_sigil hp h ih

theorem length_reread {cmd cmd' : Lexcmd} {xs : List Spelling}
    (h : shapes cmd' = shapes cmd ++ xs.map Spelling.shape) :
    cmd'.length = cmd.length + xs.length := by
  simpa using congrArg List.length h

/-- Blanks in front stay in front. -/
theorem skipSpace_respelt {p q : Text} {xs : List Spelling} (h : Respelt (skipSpace p) xs q)
    (hq : isBlank (deref q) = false) : ∃ p', Respelt p xs p' ∧ skipSpace p' = q := by
  obtain ⟨b, hb, hp⟩ := exists_blanks p
  refine ⟨b ++ q, ?_, skipSpace_blanks hb hq⟩
  rw [hp]
  exact respelt_skips b h

section Args

variable {line : Nat} {p q r : Text} {cmd cmd' : Lexcmd}

theorem begins_argNext {o : Lexcmd × Text} (h : argNext line p cmd = .ok o) : Begins (deref p) := by
  obtain ⟨a, ha, _⟩ := argNext_ok h
  rw [ha]
  exact begins_arg a _

theorem argStep_end (h : argNext line (skipSpace p) cmd = .ok (cmd', q)) (hr : endl q = some r) :
    argStep line (cmd, p) = .ok (.stop (cmd', r)) := by
  simp only [argStep, endl_eq_none (begins_argNext h).2, h, ok_bind, hr]
  rfl

theorem argStep_comma (h : argNext line (skipSpace p) cmd = .ok (cmd', ',' :: q)) :
    argStep line (cmd, p) = .ok (.next (cmd', q)) := by
  simp only [argStep, endl_eq_none (begins_argNext h).2, h, ok_bind]
  rfl

end Args

theorem argLoop_rereads_stop {line : Nat} {s t : Lexcmd × Text}
    (h : argStep line s = .ok (.stop t)) :
    Rereads (fun _ => True) (loop (argStep line) left) s t := by
  obtain ⟨q, hend, ho⟩ | ⟨cmd, q, harg, ⟨r, hend, ho⟩ | ho⟩ := argStep_ok h <;> cases ho
  · refine ⟨[], (List.append_nil _).symm, ?_⟩
    intro xs hxs _ ys q' hq _
    cases List.map_eq_nil_iff.mp hxs
    obtain ⟨p', hp', hend'⟩ := endl_respelt hend hq
    have hblank : isBlank (deref p') = false := by
      rcases endl_head hend' with h | h | h <;> rw [h] <;> rfl
    obtain ⟨p, hp, hskip⟩ := skipSpace_respelt hp' hblank
    refine ⟨p, hp, fun cmd _ => ⟨cmd, loop_of_stop ?_, by simp⟩⟩
    simp only [argStep, hskip, hend']
    rfl
  · obtain ⟨new, hnew, hread⟩ := argNext_rereads harg
    refine ⟨new, hnew, ?_⟩
    intro xs hxs hfair ys q' hq _
    obtain ⟨e', he', hend'⟩ := endl_respelt hend hq
    have hdelim : Delimits e' := by
      rcases endl_head hend' with h | h | h <;> simp only [Delimits, h] <;> decide
    obtain ⟨p', hp', hread⟩ := hread xs hxs hfair ys e' he' hdelim
    obtain ⟨_, harg', _⟩ := hread s.1 rfl
    obtain ⟨p, hp, hskip⟩ := skipSpace_respelt hp' (begins_argNext harg').1
    refine ⟨p, hp, fun cmd hlen => ?_⟩
    obtain ⟨cmd', harg', hs⟩ := hread cmd hlen
    exact ⟨cmd', loop_of_stop (argStep_end (hskip ▸ harg') hend'), hs⟩

theorem argLoop_rereads_next {line : Nat} {s t u : Lexcmd × Text}
    (h : argStep line s = .ok (.next t))
    (ih : Rereads (fun _ => True) (loop (argStep line) left) t u) :
    Rereads (fun _ => True) (loop (argStep line) left) s u := by
  obtain ⟨new, hnew, hread⟩ := argNext_rereads (argNext_of_next h)
  obtain ⟨new', hnew', hread'⟩ := ih
  simp only at hnew
  refine ⟨new ++ new', by rw [hnew', hnew, List.append_assoc], ?_⟩
  intro xs hxs hfair ys q' hq hq'
  obtain ⟨xs, xs', rfl, rfl, rfl⟩ := List.map_eq_append_iff.mp hxs
  obtain ⟨hfair, hfair'⟩ := List.forall_mem_append.mp hfair
  obtain ⟨p₁, hp₁, hread'⟩ := hread' xs' rfl hfair' ys q' hq hq'
  obtain ⟨p₂, hp₂, hread⟩ := hread xs rfl hfair (xs' ++ ys) (',' :: p₁) (hp₁.skip _) ⟨rfl, rfl⟩
  obtain ⟨_, harg', _⟩ := hread s.1 rfl
  obtain ⟨p, hp, hskip⟩ := skipSpace_respelt hp₂ (begins_argNext harg').1
  refine ⟨p, by rwa [List.append_assoc], fun cmd hlen => ?_⟩
  obtain ⟨cmd₁, harg', hs₁⟩ := hread cmd hlen
  have hlen₁ : cmd₁.length = t.1.length := by
    rw [length_reread hs₁, hlen, hnew, List.length_append, List.length_map]
  obtain ⟨cmd₂, hloop, hs₂⟩ := hread' cmd₁ hlen₁
  refine ⟨cmd₂, ?_, by rw [hs₂, hs₁, List.map_append, List.append_assoc]⟩
  rw [← hloop]
  exact loop_of_next (argStep_left line) (argStep_comma (hskip ▸ harg'))

theorem argLoop_rereads {line : Nat} {s t : Lexcmd × Text} (h : loop (argStep line) left s = .ok t) :
    Rereads (fun _ => True) (loop (argStep line) left) s t :=
  loop_ok (P := Rereads (fun _ => True) (loop (argStep line) left)) (argStep_left line)
    (fun _ _ h => argLoop_rereads_stop h) (fun _ _ _ h ih => argLoop_rereads_next h ih) h

theorem labelStep_colon {line : Nat} {i : Ident} {q : Text} {cmd : Lexcmd}
    (hlen : cmd.length < maxToken) :
    labelStep line (cmd, i.text ++ ':' :: q) =
      .ok (.next (cmd ++ [⟨line, .label, i.text ++ ':' :: q, ':' :: q⟩], skipSpace q)) := by
  simp only [labelStep]
  rw [if_pos hlen, tokenNameNext_iff.mpr ⟨i, rfl, rfl⟩, ok_bind, if_pos (deref_cons _ _)]
  rfl

theorem begins_labelStep {line : Nat} {s : Lexcmd × Text} {o : Outcome (Lexcmd × Text)}
    (h : labelStep line s = .ok o) : Begins (deref s.2) := by
  obtain ⟨i, q, hs, _⟩ := labelStep_ok h
  rw [hs]
  exact begins_ident i q

theorem begins_labelLoop {line : Nat} {s t : Lexcmd × Text}
    (h : loop (labelStep line) left s = .ok t) : Begins (deref s.2) :=
  loop_ok (P := fun s _ => Begins (deref s.2)) (labelStep_left line)
    (fun _ _ h => begins_labelStep h) (fun _ _ _ h _ => begins_labelStep h) h

theorem labelLoop_rereads_stop {line : Nat} {s t : Lexcmd × Text}
    (h : labelStep line s = .ok (.stop t)) :
    Rereads (fun _ => True) (loop (labelStep line) left) s t := by
  obtain ⟨_, _, _, hsep⟩ := labelStep_stop h
  obtain ⟨i, q, hs, hlen, ⟨_, ho⟩ | ho⟩ := labelStep_ok h <;> cases ho
  refine ⟨_, rfl, ?_⟩
  intro xs hxs hfair ys q' hq _
  obtain ⟨⟨tk, t⟩, rfl, rfl⟩ := List.map_eq_singleton_iff.mp hxs
  have hfair := hfair _ (List.mem_singleton_self _)
  rw [hs] at hfair ⊢
  obtain ⟨a, htype, htext, hp⟩ := atom_respelt (a := .name i) hfair hq
  cases a with
  | name i' =>
    have hname : inName (deref q) = false := by
      rcases hsep with (h | h) | h | h <;> simp only [h] <;> rfl
    rw [← respelt_deref hq hname] at hsep
    refine ⟨_, hp, fun cmd hcmd => ?_⟩
    obtain ⟨cmd', hloop, hs'⟩ := labelLoop_text line .nil i' hsep cmd (by
      rw [hcmd]
      exact hlen)
    refine ⟨cmd', hloop, ?_⟩
    rw [hs', ← htext]
    rfl
  | _ => cases htype

theorem labelLoop_rereads_next {line : Nat} {s t u : Lexcmd × Text}
    (h : labelStep line s = .ok (.next t))
    (ih : Rereads (fun _ => True) (loop (labelStep line) left) t u) :
    Rereads (fun _ => True) (loop (labelStep line) left) s u := by
  obtain ⟨i, q, hs, hlen, ⟨hcolon, ho⟩ | ho⟩ := labelStep_ok h <;> cases ho
  obtain ⟨new, hnew, hread⟩ := ih
  obtain ⟨q, rfl⟩ : ∃ r, q = ':' :: r := by
    cases q with
    | nil => cases hcolon
    | cons c r => exact ⟨r, by rw [← hcolon]; rfl⟩
  rw [List.append_assoc] at hnew
  refine ⟨_, hnew, ?_⟩
  intro xs hxs hfair ys q' hq hq'
  obtain ⟨⟨tk, t⟩, xs, rfl, rfl, rfl⟩ := List.map_eq_cons_iff.mp hxs
  obtain ⟨hlabel, htail⟩ := List.forall_mem_cons.mp hfair
  have ht : t = i.text := by
    rcases hlabel with ht | ⟨htype, _⟩
    · rw [hs, Lextoken.text_mk] at ht
      exact ht
    · cases htype
  subst ht
  obtain ⟨p', hp', hread⟩ := hread xs rfl htail ys q' hq hq'
  obtain ⟨_, hloop, _⟩ := hread _ rfl
  obtain ⟨p, hp, hskip⟩ := skipSpace_respelt hp' (begins_labelLoop hloop).1
  refine ⟨i.text ++ ':' :: p, ?_, fun cmd hcmd => ?_⟩
  · rw [hs]
    exact .keep line .label i.text (hp.skip ':')
  · have hfit : cmd.length < maxToken := by
      rw [hcmd]
      exact hlen
    obtain ⟨cmd', hloop, hs'⟩ := hread
      (cmd ++ [⟨line, .label, i.text ++ ':' :: p, ':' :: p⟩]) (by simp [hcmd])
    refine ⟨cmd', ?_, ?_⟩
    · rw [← hloop, loop_of_next (labelStep_left line) (labelStep_colon hfit), hskip]
    · rw [hs', shapes_append, shapes_single, List.append_assoc]
      rfl

theorem labelLoop_rereads {line : Nat} {s t : Lexcmd × Text}
    (h : loop (labelStep line) left s = .ok t) :
    Rereads (fun _ => True) (loop (labelStep line) left) s t :=
  loop_ok (P := Rereads (fun _ => True) (loop (labelStep line) left)) (labelStep_left line)
    (fun _ _ h => labelLoop_rereads_stop h) (fun _ _ _ h ih => labelLoop_rereads_next h ih) h

/-- A line with a command. -/
theorem lexerLine_some {line : Nat} {p q : Text} {cmd : Lexcmd}
    (h : lexerLine line p = .ok (some cmd, q)) :
    ∃ s, loop (labelStep line) left ([], skipSpace p) = .ok s ∧
      loop (argStep line) left s = .ok (cmd, q) := by
  simp only [lexerLine] at h
  split at h
  · cases h
  · obtain ⟨s, hs, h⟩ := bind_eq_ok.mp h
    obtain ⟨t, ht, h⟩ := bind_eq_ok.mp h
    cases h
    exact ⟨s, hs, ht⟩

theorem lexerLine_of_loops {line : Nat} {p q : Text} {cmd : Lexcmd} {s : Lexcmd × Text}
    (hs : loop (labelStep line) left ([], skipSpace p) = .ok s)
    (ht : loop (argStep line) left s = .ok (cmd, q)) : lexerLine line p = .ok (some cmd, q) := by
  simp only [lexerLine, endl_eq_none (begins_labelLoop hs).2, hs, ht, ok_bind]
  rfl

theorem lexerLine_none {line : Nat} {p q : Text} (h : lexerLine line p = .ok (none, q)) :
    endl (skipSpace p) = some q := by
  simp only [lexerLine] at h
  split at h
  next r hr =>
    cases h
    exact hr
  next =>
    obtain ⟨s, _, h⟩ := bind_eq_ok.mp h
    obtain ⟨t, _, h⟩ := bind_eq_ok.mp h
    cases h

theorem lexerLine_respelt {line : Nat} {p q q' : Text} {cmd : Option Lexcmd}
    (h : lexerLine line p = .ok (cmd, q)) {xss : List (List Spelling)} {ys : List Spelling}
    (hxss : xss.map (List.map Prod.fst) = cmd.toList) (hfair : ∀ xs ∈ xss, ∀ x ∈ xs, x.Fair)
    (hq : Respelt q ys q') :
    ∃ p' cmd', Respelt p (xss.flatten ++ ys) p' ∧ lexerLine line p' = .ok (cmd', q') ∧
      cmd'.toList.map shapes = xss.map (List.map Spelling.shape) := by
  cases cmd with
  | none =>
    cases List.map_eq_nil_iff.mp hxss
    obtain ⟨p', hp', hend⟩ := endl_respelt (lexerLine_none h) hq
    have hblank : isBlank (deref p') = false := by
      rcases endl_head hend with h | h | h <;> rw [h] <;> rfl
    obtain ⟨p'', hp'', hskip⟩ := skipSpace_respelt hp' hblank
    refine ⟨p'', none, hp'', ?_, rfl⟩
    simp only [lexerLine, hskip, hend]
    rfl
  | some cmd =>
    obtain ⟨xs, rfl, hxs⟩ := List.map_eq_singleton_iff.mp hxss
    obtain ⟨s, hs, ht⟩ := lexerLine_some h
    obtain ⟨new, hnew, hlabels⟩ := labelLoop_rereads hs
    obtain ⟨new', hnew', hargs⟩ := argLoop_rereads ht
    simp only [List.nil_append] at hnew hnew'
    rw [hnew', hnew] at hxs
    obtain ⟨xs, xs', rfl, rfl, rfl⟩ := List.map_eq_append_iff.mp hxs
    obtain ⟨hfair, hfair'⟩ := List.forall_mem_append.mp (List.forall_mem_singleton.mp hfair)
    obtain ⟨p₁, hp₁, hargs⟩ := hargs xs' rfl hfair' ys q' hq trivial
    obtain ⟨p₂, hp₂, hlabels⟩ := hlabels xs rfl hfair (xs' ++ ys) p₁ hp₁ trivial
    obtain ⟨cmd₁, hloop₁, hs₁⟩ := hlabels [] rfl
    obtain ⟨cmd₂, hloop₂, hs₂⟩ := hargs cmd₁ (by
      rw [length_reread hs₁, hnew, List.length_map, List.length_nil, Nat.zero_add])
    obtain ⟨p', hp', hskip⟩ := skipSpace_respelt hp₂ (begins_labelLoop hloop₁).1
    refine ⟨p', some cmd₂, by simpa using hp', lexerLine_of_loops (hskip ▸ hloop₁) hloop₂, ?_⟩
    simp [hs₂, hs₁]

/-- The lines that are left are read from every text that differs in its names. -/
theorem lexer_rereads {c d : Asmchip32} (h : lexer c = .ok d) :
    ∃ cmds, d.vcmd = c.vcmd ++ cmds ∧ ∀ xss : List (List Spelling),
      xss.map (List.map Prod.fst) = cmds → (∀ xs ∈ xss, ∀ x ∈ xs, x.Fair) →
      ∃ p, Respelt c.parse xss.flatten p ∧ ∀ c' : Asmchip32, c'.parse = p → c'.line = c.line →
        ∃ d', lexer c' = .ok d' ∧
          d'.vcmd.map shapes = c'.vcmd.map shapes ++ xss.map (List.map Spelling.shape) := by
  refine loop_ok (P := fun c d => ∃ cmds, d.vcmd = c.vcmd ++ cmds ∧
    ∀ xss : List (List Spelling), xss.map (List.map Prod.fst) = cmds →
      (∀ xs ∈ xss, ∀ x ∈ xs, x.Fair) →
      ∃ p, Respelt c.parse xss.flatten p ∧ ∀ c' : Asmchip32, c'.parse = p → c'.line = c.line →
        ∃ d', lexer c' = .ok d' ∧
          d'.vcmd.map shapes = c'.vcmd.map shapes ++ xss.map (List.map Spelling.shape))
    lexerStep_left ?_ ?_ h
  · intro c d h
    cases lexerStep_stop h
    refine ⟨[], (List.append_nil _).symm, fun xss hxss _ => ?_⟩
    cases List.map_eq_nil_iff.mp hxss
    refine ⟨c.parse, respelt_refl _, fun c' hparse _ => ⟨c', loop_of_stop ?_, by simp⟩⟩
    unfold lexerStep at h ⊢
    rw [hparse]
    split_ifs at h ⊢ with hn
    · rfl
    · split at h <;> cases h
  · intro c d e h ih
    obtain ⟨⟨cmd, q⟩, hn, hline, rfl⟩ := lexerStep_next h
    obtain ⟨cmds, hcmds, hread⟩ := ih
    simp only [List.append_assoc] at hcmds
    refine ⟨_, hcmds, fun xss hxss hfair => ?_⟩
    obtain ⟨xss, yss, rfl, hxss, hyss⟩ := List.map_eq_append_iff.mp hxss
    obtain ⟨hfair, hfair'⟩ := List.forall_mem_append.mp hfair
    obtain ⟨q', hq', hread⟩ := hread yss hyss hfair'
    obtain ⟨p, cmd', hp, hline', hs⟩ := lexerLine_respelt hline hxss hfair hq'
    refine ⟨p, by rwa [List.flatten_append], fun c' hparse hc => ?_⟩
    have hn' : deref c'.parse ≠ nul := by
      rw [hparse]
      exact respelt_ne_nul hp hn
    rw [← hparse, ← hc] at hline'
    obtain ⟨d', hd', hmap⟩ := hread
      { c' with vcmd := c'.vcmd ++ cmd'.toList, parse := q', line := c'.line + 1 } rfl (by
        rw [hc])
    refine ⟨d', (lexer_of_line hn' hline').trans hd', ?_⟩
    rw [hmap, List.map_append, hs, List.map_append, List.append_assoc]

/-- A source with other names is read as its tokens with these names. -/
theorem lexer_respell {code : Text} {c : Asmchip32} (h : lexer (.new code) = .ok c)
    {xss : List (List Spelling)} (hxss : xss.map (List.map Prod.fst) = c.vcmd)
    (hfair : ∀ xs ∈ xss, ∀ x ∈ xs, x.Fair) :
    ∃ d, lexer (.new (respell code xss.flatten)) = .ok d ∧
      d.vcmd.map shapes = xss.map (List.map Spelling.shape) := by
  obtain ⟨cmds, hcmds, hread⟩ := lexer_rereads h
  obtain ⟨p, hp, hread⟩ := hread xss (hxss.trans hcmds) hfair
  obtain ⟨d, hd, hmap⟩ := hread (.new p) rfl rfl
  rw [respelt_eq hp] at hd
  exact ⟨d, hd, by simpa [Asmchip32.new] using hmap⟩

end Asm
