import Chip32.ParserSpec
import Chip32.Places

/-!
# Line numbers

The line counter goes up once for each line that is read, so a token's number is right
if no literal in front of it spans lines.
-/
namespace Asm

open Runs Grammar

/-- The newlines of the source in front of a token. -/
def newlinesBefore (code : Text) (tk : Lextoken) : Nat :=
  (code.take (code.length - tk.start.length)).count '\n'

/-- Each token has the number of the line it starts in. -/
def LinesRight (code : Text) (c : Asmchip32) : Prop :=
  ∀ cmd ∈ c.vcmd, ∀ tk ∈ cmd, tk.line = 1 + newlinesBefore code tk

/-- The newlines inside tokens. -/
def breaks (xs : List (Tktype × List Char)) : Nat := (xs.flatMap Prod.snd).count '\n'

theorem breaks_append (xs ys : List (Tktype × List Char)) :
    breaks (xs ++ ys) = breaks xs + breaks ys := by
  rw [breaks, List.flatMap_append, List.count_append]
  rfl

theorem breaks_eq_zero {xs : List (Tktype × List Char)} :
    breaks xs = 0 ↔ ∀ x ∈ xs, '\n' ∉ x.2 := by
  rw [breaks, List.count_eq_zero, List.mem_flatMap]
  simp only [not_exists, not_and]

/-- No newline stands between two tokens. -/
def Unbroken (ps : List Part) : Prop := ∀ t, .filler t ∈ ps → '\n' ∉ t

theorem newline_notMem (b : Space) : '\n' ∉ b.1 := by
  intro h
  rcases b.2 _ h with h | h <;> cases h

theorem unbroken_part {t : Text} (h : LinePart (.filler t)) : '\n' ∉ t := by
  generalize hp : Part.filler t = p at h
  cases h with
  | space b =>
    cases hp
    exact newline_notMem b
  | colon b =>
    cases hp
    simpa using newline_notMem b
  | comma g =>
    cases hp
    simpa using newline_notMem g
  | trail g remark =>
    cases hp
    have hremark : '\n' ∉ remarkText remark := by
      cases remark with
      | none => exact nofun
      | some t =>
        intro h
        rcases List.mem_cons.mp h with h | h
        · cases h
        · exact (t.2 _ h).1 rfl
    intro h
    exact (List.mem_append.mp h).elim (newline_notMem g) hremark
  | label | sigil | atom => cases hp

theorem unbroken_line (l : Line) : Unbroken l.parts := fun _ ht => unbroken_part (l.linePart _ ht)

theorem count_spell {ps : List Part} (h : Unbroken ps) :
    (spell ps).count '\n' = breaks (tokensOf ps) := by
  induction ps with
  | nil => rfl
  | cons p ps ih =>
    have ih := ih fun t ht => h t (List.mem_cons_of_mem p ht)
    cases p with
    | filler t =>
      rw [spell_filler, List.count_append, ih, List.count_eq_zero.mpr (h t List.mem_cons_self),
        Nat.zero_add]
      rfl
    | token type t =>
      rw [spell_token, List.count_append, ih, tokensOf_token, ← List.singleton_append, breaks_append]
      simp [breaks]

/-- In front of the `k`-th token of a line stand the newlines in front of the line and
those inside the tokens before. -/
theorem newlinesBefore_lay {line : Nat} {ps : List Part} (h : Unbroken ps) (pre q : Text) {k : Nat}
    {tk : Lextoken} (htk : (lay line ps q)[k]? = some tk) :
    newlinesBefore (pre ++ (spell ps ++ q)) tk =
      pre.count '\n' + breaks ((tokensOf ps).take k) := by
  induction ps generalizing pre k with
  | nil => cases htk
  | cons p ps ih =>
    have ih := @ih fun t ht => h t (List.mem_cons_of_mem p ht)
    cases p with
    | filler t =>
      have hcount : t.count '\n' = 0 := List.count_eq_zero.mpr (h t List.mem_cons_self)
      have hih := ih (pre ++ t) htk
      rw [List.append_assoc, ← List.append_assoc t, List.count_append, hcount] at hih
      exact hih
    | token type t =>
      cases k with
      | zero =>
        cases htk
        simp [newlinesBefore, breaks]
      | succ k =>
        have hih := ih (pre ++ t) htk
        rw [List.append_assoc, ← List.append_assoc t, List.count_append] at hih
        rw [spell_token, hih, tokensOf_token, List.take_succ_cons, ← List.singleton_append,
          breaks_append, Nat.add_assoc]
        simp [breaks]

theorem line_of_lay {line : Nat} {ps : List Part} {q : Text} : ∀ tk ∈ lay line ps q, tk.line = line := by
  induction ps with
  | nil => exact nofun
  | cons p ps ih =>
    cases p with
    | filler t => exact ih
    | token type t =>
      rw [lay_token]
      exact List.forall_mem_cons.mpr ⟨rfl, ih⟩

/-- The newlines that the lexer has passed: one for each line, and those inside tokens. -/
structure Counted (code : Text) (c : Asmchip32) : Prop where
  passed : ∃ pre, code = pre ++ c.parse ∧
    (deref c.parse ≠ nul → pre.count '\n' + 1 = c.line + breaks (shapes c.vcmd.flatten))
  tokens : ∀ k tk, c.vcmd.flatten[k]? = some tk →
    newlinesBefore code tk + 1 = tk.line + breaks ((shapes c.vcmd.flatten).take k)

theorem step_counted {code : Text} {c d : Asmchip32} (hc : Counted code c)
    (h : lexerStep c = .ok (.next d)) : Counted code d := by
  obtain ⟨r, hn, hline, rfl⟩ := lexerStep_next h
  obtain ⟨l, e, hread⟩ := lexerLine_places hline
  obtain ⟨⟨pre, hcode, hpassed⟩, htokens⟩ := hc
  have hpassed := hpassed hn
  have hunbroken := unbroken_line l
  have htext : code = pre ++ (spell l.parts ++ e) := by
    rw [hcode, hread.text]
    rfl
  have hflatten : (c.vcmd ++ r.1.toList).flatten = c.vcmd.flatten ++ lay c.line l.parts e := by
    rw [List.flatten_append, hread.cmd, flatten_lineCmd]
  refine ⟨?_, ?_⟩
  · rcases hread.ending with he | ⟨rfl, hnul⟩
    · refine ⟨pre ++ (spell l.parts ++ ['\n']), ?_, fun _ => ?_⟩
      · rw [htext, he]
        simp
      · have hnl : List.count '\n' ['\n'] = 1 := rfl
        rw [hflatten, shapes_append, breaks_append, shapes_lay, List.count_append, List.count_append,
          count_spell hunbroken, hnl]
        change _ = c.line + 1 + _
        omega
    · exact ⟨pre ++ spell l.parts, by rw [htext, List.append_assoc], fun hr => absurd hnul hr⟩
  · intro k tk htk
    rw [hflatten] at htk ⊢
    rw [shapes_append, List.take_append]
    by_cases hk : k < c.vcmd.flatten.length
    · rw [List.getElem?_append_left hk] at htk
      have hzero : k - (shapes c.vcmd.flatten).length = 0 := by
        rw [length_shapes]
        omega
      rw [hzero, List.take_zero, List.append_nil]
      exact htokens k tk htk
    · rw [List.getElem?_append_right (by omega)] at htk
      have hbefore := newlinesBefore_lay hunbroken pre e htk
      rw [← htext] at hbefore
      have htake : (shapes c.vcmd.flatten).take k = shapes c.vcmd.flatten := by
        apply List.take_of_length_le
        rw [length_shapes]
        omega
      rw [htake, breaks_append, shapes_lay, length_shapes, hbefore,
        line_of_lay tk (List.mem_of_getElem? htk)]
      omega

theorem lexer_counted {code : Text} {c : Asmchip32} (h : lexer (.new code) = .ok c) :
    Counted code c := by
  have hstart : Counted code (.new code) := ⟨⟨[], rfl, fun _ => rfl⟩, nofun⟩
  refine loop_ok (P := fun c d => Counted code c → Counted code d) lexerStep_left ?_ ?_ h hstart
  · intro c d h hc
    rwa [lexerStep_stop h]
  · intro c d e h ih hc
    exact ih (step_counted hc h)

theorem breaks_take {xs : List (Tktype × List Char)} :
    (∀ k < xs.length, breaks (xs.take k) = 0) ↔ ∀ x ∈ xs.dropLast, '\n' ∉ x.2 := by
  rw [← breaks_eq_zero, List.dropLast_eq_take]
  constructor
  · intro h
    cases xs with
    | nil => rfl
    | cons x xs => exact h _ (by simp)
  · intro h k hk
    rw [breaks_eq_zero] at h ⊢
    intro x hx
    apply h x
    exact List.take_subset_take_left _ (by omega) hx

/-- In a listing the numbers are right exactly if no token but the last one contains a
newline. -/
theorem listing_lines_right (s : Listing) {c : Asmchip32} (h : lexer (.new s.text) = .ok c) :
    LinesRight s.text c ↔ ∀ x ∈ s.tokens.flatten.dropLast, '\n' ∉ x.2 := by
  have htokens := (lexer_counted h).tokens
  have hshapes : s.tokens.flatten = shapes c.vcmd.flatten := by
    rw [← listing_shapes h, shapes, List.map_flatten]
    rfl
  rw [hshapes, ← breaks_take, length_shapes]
  constructor
  · intro hright k hk
    have htk := List.getElem?_eq_getElem hk
    obtain ⟨cmd, hcmd, hmem⟩ := List.mem_flatten.mp (List.mem_of_getElem? htk)
    have h₁ := hright cmd hcmd _ hmem
    have h₂ := htokens k _ htk
    omega
  · intro hnone cmd hcmd tk htk
    obtain ⟨k, hk⟩ := List.mem_iff_getElem?.mp (List.mem_flatten.mpr ⟨cmd, hcmd, htk⟩)
    have h₁ := hnone k (List.getElem?_eq_some_iff.mp hk).1
    have h₂ := htokens k tk hk
    omega

/-- A source that is read is the text of a listing, and its tokens have the right line
numbers exactly if no token of the listing but the last one contains a newline. -/
theorem lines_right_iff {code : Text} {c : Asmchip32} (hn : nul ∉ code)
    (h : lexer (.new code) = .ok c) : (∃ s : Listing, s.text = code) ∧
      ∀ s : Listing, s.text = code →
        (LinesRight code c ↔ ∀ x ∈ s.tokens.flatten.dropLast, '\n' ∉ x.2) := by
  obtain ⟨s, hs, _⟩ := exists_listing hn h
  refine ⟨⟨s, hs⟩, ?_⟩
  rintro t rfl
  exact listing_lines_right t h

/-- Two lines, the last token of which is a newline. -/
def newlineListing : Listing where
  lines := [⟨.command .none [] nameNop (.done .one) trivial,
    .none, some ⟨['x'], by simp [nul]⟩⟩]
  last := ⟨.command .none [] ⟨'l', ['o', 'g', 'c'], .inl rfl, by simp⟩
    (.last .one ⟨[], .char [.plain '\n' (by decide)]⟩) Space.one_ne_nil, .none, none⟩

theorem lines_right_newline :
    LinesRight "nop ;x\nlogc '\n'".toList (final (lexer (.new "nop ;x\nlogc '\n'".toList))) :=
  ((lines_right_iff (by decide) (ok_final (by decide +kernel))).2 newlineListing (by decide)).mpr
    (by decide)

instance (code : Text) (c : Asmchip32) : Decidable (LinesRight code c) :=
  inferInstanceAs (Decidable (∀ _ ∈ _, _))

/-- A character that is a newline, and a line behind it. -/
def splitSource : Text := "logc '\n'\nnop\n".toList

/-- The second line is counted as the second, but stands behind two newlines. -/
theorem lines_wrong : ∃ c, lexer (.new splitSource) = .ok c ∧ ¬ LinesRight splitSource c :=
  ⟨final (lexer (.new splitSource)), ok_final (by decide +kernel), by decide +kernel⟩

end Asm
