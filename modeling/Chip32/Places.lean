import Chip32.ListingLexer

/-!
# Where the tokens stand

Every line that is read is the text of a line of a listing, and its tokens stand where
that line has them.
-/
namespace Asm

open Runs Grammar

/-- The tokens of parts in front of `q`. -/
def lay (line : Nat) : List Part → Text → Lexcmd
  | [], _ => []
  | .filler _ :: ps, q => lay line ps q
  | .token type t :: ps, q => ⟨line, type, t ++ (spell ps ++ q), spell ps ++ q⟩ :: lay line ps q

section Lay

variable (line : Nat) (ps qs : List Part) (t q : Text) (type : Tktype)

@[simp] theorem lay_nil : lay line [] q = [] := rfl
@[simp] theorem lay_filler : lay line (.filler t :: ps) q = lay line ps q := rfl
@[simp] theorem lay_token : lay line (.token type t :: ps) q =
    ⟨line, type, t ++ (spell ps ++ q), spell ps ++ q⟩ :: lay line ps q := rfl

theorem lay_append : lay line (ps ++ qs) q = lay line ps (spell qs ++ q) ++ lay line qs q := by
  induction ps with
  | nil => rfl
  | cons p ps ih =>
    cases p with
    | filler t => exact ih
    | token type t => simp [ih]

theorem shapes_lay : shapes (lay line ps q) = tokensOf ps := by
  induction ps with
  | nil => rfl
  | cons p ps ih =>
    cases p with
    | filler t => exact ih
    | token type t =>
      rw [lay_token, tokensOf_token, ← ih]
      simp [shapes, Lextoken.text_mk]

end Lay

/-- The command of a line in front of `e`. -/
def lineCmd (line : Nat) (l : Line) (e : Text) : Option Lexcmd :=
  match l.row with
  | .blank _ => none
  | .command .. => some (lay line l.parts e)

/-- The tokens of a line that is read, whether it has a command or not. -/
theorem flatten_lineCmd (line : Nat) (l : Line) (e : Text) :
    (lineCmd line l e).toList.flatten = lay line l.parts e := by
  obtain ⟨row, gap, remark⟩ := l
  cases row with
  | blank b => rfl
  | command indent labels name o opens => simp [lineCmd]

section Reads

variable {line : Nat} {s t : Lexcmd × Text}

/-- An argument that is read. -/
theorem argNext_reads {p : Text} {cmd : Lexcmd} {r : Lexcmd × Text}
    (h : argNext line p cmd = .ok r) :
    ∃ a : Arg, p = a.text ++ r.2 ∧ r.1 = cmd ++ lay line a.parts r.2 := by
  induction p generalizing cmd with
  | nil => exact absurd h complain_ne_ok
  | cons c p ih =>
    cases hp : prefixType c with
    | none =>
      obtain ⟨a, ha, hs, _⟩ := argNext_atom hp h
      obtain ⟨type, hr⟩ := argNext_single hp h
      have htype : type = a.type := by
        rw [hr, ha, shapes_append, shapes_single, List.append_cancel_left_eq] at hs
        simpa using hs
      refine ⟨⟨[], a⟩, ha, ?_⟩
      rw [hr, htype, ha]
      rfl
    | some type =>
      obtain ⟨s, rfl, rfl⟩ := exists_sigil hp
      simp only [argNext, hp] at h
      obtain ⟨r', hput, hr⟩ := bind_eq_ok.mp h
      obtain ⟨_, hone, hr'⟩ := putToken_iff.mp hput
      have hstop : r'.2 = p := (Except.ok.inj hone).symm
      obtain ⟨a, ha, hcmd⟩ := ih hr
      refine ⟨⟨s :: a.sigils, a.atom⟩, by rw [ha]; rfl, ?_⟩
      have hparts : Arg.parts ⟨s :: a.sigils, a.atom⟩ = .token s.type [s.char] :: a.parts := rfl
      rw [hcmd, hr', hstop, hparts, lay_token, spell_parts, ← ha, List.append_assoc]
      rfl

theorem colon_of_deref {q : Text} (h : deref q = ':') : ∃ b : Space, q = ':' :: (b.1 ++ skipSpace q.tail) := by
  obtain ⟨b, hb, hblanks⟩ := exists_blanks q.tail
  cases q with
  | nil => cases h
  | cons c q =>
    rw [deref_cons] at h
    rw [h]
    exact ⟨⟨b, hb⟩, congrArg (':' :: ·) hblanks⟩

/-- The labels and the name of a command that is read. -/
theorem labelLoop_places (h : loop (labelStep line) left s = .ok t) :
    ∃ (labels : List (Ident × Space)) (name : Ident),
      s.2 = spell (labelParts labels) ++ (name.text ++ t.2) ∧
      t.1 = s.1 ++ lay line (labelParts labels ++ [.token .name name.text]) t.2 := by
  refine loop_ok (P := fun s t => ∃ (labels : List (Ident × Space)) (name : Ident),
    s.2 = spell (labelParts labels) ++ (name.text ++ t.2) ∧
    t.1 = s.1 ++ lay line (labelParts labels ++ [.token .name name.text]) t.2)
    (labelStep_left line) ?_ ?_ h
  · intro s t h
    obtain ⟨i, q, hs, _, ⟨_, ho⟩ | ho⟩ := labelStep_ok h <;> cases ho
    exact ⟨[], i, hs, by rw [hs]; rfl⟩
  · rintro s t u h ⟨labels, name, hu, hcmd⟩
    obtain ⟨i, q, hs, _, ⟨hcolon, ho⟩ | ho⟩ := labelStep_ok h <;> cases ho
    obtain ⟨b, hb⟩ := colon_of_deref hcolon
    have hcons : labelParts ((i, b) :: labels) =
        .token .label i.text :: .filler (':' :: b.1) :: labelParts labels := rfl
    have hrest : q = ':' :: (b.1 ++ (spell (labelParts labels) ++ (name.text ++ u.2))) := by
      rw [← hu]
      exact hb
    refine ⟨(i, b) :: labels, name, ?_, ?_⟩
    · rw [hs, hrest, hcons]
      simp
    · rw [hcmd, hs, hrest, hcons]
      simp

/-- What `a32_endl` reads is a comment, or nothing, and the end of a line. -/
theorem endl_reads {p q : Text} (h : endl p = some q) : ∃ (remark : Option Remark) (e : Text),
    p = remarkText remark ++ e ∧ Ending e q := by
  unfold endl at h
  split at h
  · cases h
    exact ⟨none, [], rfl, .inr ⟨rfl, rfl⟩⟩
  · cases h
    exact ⟨none, _, rfl, .inr ⟨rfl, rfl⟩⟩
  · cases h
    exact ⟨none, _, rfl, .inl rfl⟩
  next p =>
    obtain ⟨b, hp, hb⟩ := exists_run (fun c => c ≠ nul && c ≠ '\n') p
    have hskip : skipComment (';' :: p) = skipComment p := rfl
    change p = b ++ skipComment p at hp
    refine ⟨some ⟨b, fun c hc => by simpa [and_comm] using hb c hc⟩, skipComment p, ?_, ?_⟩
    · exact congrArg (';' :: ·) hp
    · simp only [hskip, Option.some.injEq] at h
      have hstop := deref_dropWhile (p := fun c => c ≠ nul && c ≠ '\n') rfl p
      change (deref (skipComment p) ≠ nul && deref (skipComment p) ≠ '\n') = false at hstop
      split_ifs at h with hn
      · have hnl : deref (skipComment p) = '\n' := by simpa [hn] using hstop
        cases hs : skipComment p with
        | nil => rw [hs] at hnl; cases hnl
        | cons c r =>
          rw [hs, deref_cons] at hnl
          rw [hs] at h
          exact .inl (by rw [hnl, ← h]; rfl)
      · exact .inr ⟨h, by rw [← h]; exact not_not.mp hn⟩
  · cases h

/-- The arguments of a command that is read, and the end of its line. -/
theorem argLoop_places (h : loop (argStep line) left s = .ok t) :
    ∃ (o : Operands) (remark : Option Remark) (e : Text),
      s.2 = spell o.parts ++ (remarkText remark ++ e) ∧ Ending e t.2 ∧
        t.1 = s.1 ++ lay line o.parts (remarkText remark ++ e) := by
  refine loop_ok (P := fun s t => ∃ (o : Operands) (remark : Option Remark) (e : Text),
    s.2 = spell o.parts ++ (remarkText remark ++ e) ∧ Ending e t.2 ∧
      t.1 = s.1 ++ lay line o.parts (remarkText remark ++ e)) (argStep_left line) ?_ ?_ h
  · intro s t h
    obtain ⟨b, hb, hblanks⟩ := exists_blanks s.2
    obtain ⟨q, hend, ho⟩ | ⟨cmd, q, harg, ⟨r, hend, ho⟩ | ho⟩ := argStep_ok h <;> cases ho
    · obtain ⟨remark, e, hq, he⟩ := endl_reads hend
      refine ⟨.done ⟨b, hb⟩, remark, e, ?_, he, by simp [Operands.parts]⟩
      rw [← hq]
      simpa [Operands.parts] using hblanks
    · obtain ⟨remark, e, hq, he⟩ := endl_reads hend
      obtain ⟨a, ha, hcmd⟩ := argNext_reads harg
      refine ⟨.last ⟨b, hb⟩ a, remark, e, ?_, he, ?_⟩
      · rw [← hq]
        simp only [Operands.parts, spell_filler, spell_parts, List.append_assoc]
        exact ha ▸ hblanks
      · simp only at hcmd
        rw [← hq, hcmd]
        rfl
  · rintro s t u h ⟨o, remark, e, ht, he, hcmd⟩
    obtain ⟨b, hb, hblanks⟩ := exists_blanks s.2
    obtain ⟨a, ha, hcmd'⟩ := argNext_reads (argNext_of_next h)
    simp only at ha hcmd'
    refine ⟨.more ⟨b, hb⟩ a .none o, remark, e, ?_, he, ?_⟩
    · rw [hblanks, ha, ht]
      simp [Operands.parts, Space.none]
    · have hparts : Operands.parts (.more ⟨b, hb⟩ a .none o) =
          .filler b :: (a.parts ++ .filler [','] :: o.parts) := rfl
      rw [hcmd, hcmd', ht, hparts, lay_filler, lay_append, lay_filler, spell_filler,
        List.append_assoc, List.append_assoc]
      rfl

theorem opens_of_head {o : Operands} {q : Text}
    (h : Blank (deref (spell o.parts ++ q)) ∨ deref (spell o.parts ++ q) = '\n' ∨
      deref (spell o.parts ++ q) = ';') : o.Opens := by
  have hbegins : ∀ (b : Space) (a : Arg) (ps : List Part),
      spell o.parts = b.1 ++ (a.text ++ spell ps) → b.1 ≠ [] := by
    intro b a ps hspell hb
    rw [hspell, hb, List.nil_append, List.append_assoc] at h
    obtain ⟨hblank, _, hnl, hsemi⟩ := begins_arg a (spell ps ++ q)
    rcases h with h | h | h
    · rw [isBlank_iff.mpr h] at hblank
      cases hblank
    · exact hnl h
    · exact hsemi h
  cases o with
  | done b => trivial
  | last b a => exact hbegins b a [] (by simp [Operands.parts])
  | more b a g o => exact hbegins b a (.filler (g.1 ++ [',']) :: o.parts) (by simp [Operands.parts])

end Reads

/-- A line that is read. -/
structure ReadLine (line : Nat) (p : Text) (r : Option Lexcmd × Text) (l : Line) (e : Text) : Prop where
  text : p = l.text ++ e
  ending : Ending e r.2
  gap : l.gap = Space.none
  taken : Line.Taken l e
  cmd : r.1 = lineCmd line l e

/-- Every line that is read is a line of a listing, with its tokens in their places. -/
theorem lexerLine_places {line : Nat} {p : Text} {r : Option Lexcmd × Text}
    (h : lexerLine line p = .ok r) : ∃ l e, ReadLine line p r l e := by
  have taken : ∀ (l : Line) (e : Text), p = l.text ++ e → Ending e r.2 → Line.Taken l e := by
    intro l e hp he
    rcases lexerLine_listed line l he with ⟨htaken, _⟩ | ⟨_, x, hx⟩
    · exact htaken
    · rw [← hp, h] at hx
      cases hx
  obtain ⟨b, hb, hblanks⟩ := exists_blanks p
  have hread := h
  simp only [lexerLine] at h
  split at h
  next q hend =>
    cases h
    obtain ⟨remark, e, hq, he⟩ := endl_reads hend
    rw [hq] at hblanks
    have hp : p = Line.text ⟨.blank ⟨b, hb⟩, .none, remark⟩ ++ e := by
      simpa [Line.text, Line.parts, Row.parts, Line.trail, Space.none] using hblanks
    exact ⟨_, e, hp, he, rfl, taken _ e hp he, rfl⟩
  next =>
    obtain ⟨s, hs, h⟩ := bind_eq_ok.mp h
    obtain ⟨⟨cmd, q⟩, ht, h⟩ := bind_eq_ok.mp h
    cases h
    obtain ⟨labels, name, hp, hcmd⟩ := labelLoop_places hs
    obtain ⟨_, _, _, _, _, _, hhead⟩ := labelLoop_reads hs
    obtain ⟨o, remark, e, hs₂, he, hcmd'⟩ := argLoop_places ht
    rw [hs₂] at hhead hp hcmd
    simp only at hp hcmd hcmd' he
    have hopens := opens_of_head hhead
    have htext : p = Line.text ⟨.command ⟨b, hb⟩ labels name o hopens, .none, remark⟩ ++ e := by
      rw [hblanks, hp]
      simp [Line.text, Line.parts, Row.parts, Line.trail, Space.none]
    refine ⟨_, e, htext, he, rfl, taken _ e htext he, ?_⟩
    simp only [lineCmd, Option.some.injEq]
    rw [hcmd', hcmd]
    simp [Line.parts, Row.parts, Line.trail, Space.none, lay_append]

theorem nul_of_stop {c d : Asmchip32} (h : lexerStep c = .ok (.stop d)) : deref c.parse = nul := by
  unfold lexerStep at h
  split_ifs at h with hn
  · exact hn
  · split at h <;> cases h

/-- A line without anything. -/
def emptyLine : Line := ⟨.blank .none, .none, none⟩

/-- Every source that is read is the text of a proper listing, in which the blanks at the
end of a line are part of what stands behind its name. -/
theorem exists_listing {code : Text} {c : Asmchip32} (hn : nul ∉ code)
    (h : lexer (.new code) = .ok c) :
    ∃ s : Listing, s.text = code ∧ s.Proper ∧ ∀ l ∈ s.lines ++ [s.last], l.gap = .none := by
  have hempty : ∀ p : Text, nul ∉ p → deref p = nul → p = [] := by
    intro p hp hd
    cases p with
    | nil => rfl
    | cons x p => exact absurd (hd ▸ List.mem_cons_self) hp
  have htext : nul ∉ (Asmchip32.new code).parse → ∃ s : Listing,
      s.text = (Asmchip32.new code).parse ∧ ∀ l ∈ s.lines ++ [s.last], l.gap = .none := by
    refine loop_ok (P := fun c _ => nul ∉ c.parse → ∃ s : Listing, s.text = c.parse ∧
      ∀ l ∈ s.lines ++ [s.last], l.gap = .none) lexerStep_left ?_ ?_ h
    · intro c d hstop hp
      refine ⟨⟨[], emptyLine⟩, ?_, by simp [emptyLine]⟩
      rw [hempty _ hp (nul_of_stop hstop)]
      rfl
    · intro c d _ hstep ih hp
      obtain ⟨r, _, hline, rfl⟩ := lexerStep_next hstep
      obtain ⟨l, e, hread⟩ := lexerLine_places hline
      rcases hread.ending with he | ⟨rfl, hd⟩
      · obtain ⟨s, hs, hgaps⟩ := ih fun hr => hp (by rw [hread.text, he]; simp [hr])
        have hs : s.text = r.2 := hs
        refine ⟨⟨l :: s.lines, s.last⟩, ?_, ?_⟩
        · rw [hread.text, he, ← hs]
          simp [Listing.text]
        · rw [List.cons_append]
          exact List.forall_mem_cons.mpr ⟨hread.gap, hgaps⟩
      · refine ⟨⟨[], l⟩, ?_, by simpa using hread.gap⟩
        have hr : r.2 = [] := hempty _ (fun hr => hp (by rw [hread.text]; simp [hr])) hd
        rw [hread.text, hr, List.append_nil]
        rfl
  obtain ⟨s, hs, hgaps⟩ := htext hn
  have hs : s.text = code := hs
  refine ⟨s, hs, (lexer_listing s).mp ⟨c, ?_⟩, hgaps⟩
  rw [hs]
  exact h

end Asm
