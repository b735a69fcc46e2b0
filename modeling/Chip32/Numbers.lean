import Chip32.Source
import Chip32.ParserSpec

/-!
# Numbers in a source

`strtoul` reads the source from the start of a token and knows nothing of its
end. A number the lexer read ends where no digit follows, so what `strtoul`
makes of a decimal is its value.
-/
namespace Asm

open Runs Vm Grammar

/-- What follows a number is no part of it. -/
def Ends (tk : Lextoken) : Prop :=
  tk.type = .literalNum →
    (∃ n : Number, tk.start = n.text ++ tk.stop) ∧ inInteger (deref tk.stop) = false

theorem ends_of_type {tk : Lextoken} (h : tk.type ≠ .literalNum) : Ends tk := fun ht => absurd ht h

theorem ends_append {cmd : Lexcmd} {tk : Lextoken} (h : ∀ x ∈ cmd, Ends x) (htk : Ends tk) :
    ∀ x ∈ cmd ++ [tk], Ends x := by
  intro x hx
  rcases List.mem_append.mp hx with hx | hx
  · exact h x hx
  · rw [List.mem_singleton.mp hx]
    exact htk

theorem putToken_ends {line : Nat} {type : Tktype} {next : Text → Lex Text} {p : Text}
    {cmd : Lexcmd} {r : Lexcmd × Text} (h : putToken line type next p cmd = .ok r)
    (hcmd : ∀ x ∈ cmd, Ends x) (ht : next p = .ok r.2 → Ends ⟨line, type, p, r.2⟩) :
    ∀ x ∈ r.1, Ends x := by
  obtain ⟨_, hnext, hr⟩ := putToken_iff.mp h
  rw [hr]
  exact ends_append hcmd (ht hnext)

theorem argNext_ends {line : Nat} {p : Text} {cmd : Lexcmd} {r : Lexcmd × Text}
    (h : argNext line p cmd = .ok r) (hcmd : ∀ x ∈ cmd, Ends x) : ∀ x ∈ r.1, Ends x := by
  induction p generalizing cmd with
  | nil => exact absurd h complain_ne_ok
  | cons c p ih =>
    cases hp : prefixType c with
    | some type =>
      simp only [argNext, hp] at h
      obtain ⟨r', hput, hr⟩ := bind_eq_ok.mp h
      obtain ⟨s, _, rfl⟩ := exists_sigil hp
      exact ih hr (putToken_ends hput hcmd fun _ => ends_of_type (by cases s <;> rintro ⟨⟩))
    | none =>
      simp only [argNext, hp] at h
      split_ifs at h with h₁ h₂ h₃ h₄ h₅
      · exact putToken_ends h hcmd fun _ => ends_of_type (by rintro ⟨⟩)
      · refine putToken_ends h hcmd fun hnext _ => ?_
        obtain ⟨n, hn, hstop⟩ := tokenInteger_iff.mp hnext
        exact ⟨⟨n, hn⟩, hstop⟩
      · exact putToken_ends h hcmd fun _ => ends_of_type (by rintro ⟨⟩)
      · exact putToken_ends h hcmd fun _ => ends_of_type (by rintro ⟨⟩)
      · exact putToken_ends h hcmd fun _ => ends_of_type (by rintro ⟨⟩)
      · exact absurd h complain_ne_ok

theorem labelLoop_ends {line : Nat} {s t : Lexcmd × Text}
    (h : loop (labelStep line) left s = .ok t) : (∀ x ∈ s.1, Ends x) → ∀ x ∈ t.1, Ends x := by
  refine loop_ok (P := fun s t => (∀ x ∈ s.1, Ends x) → ∀ x ∈ t.1, Ends x)
    (labelStep_left line) ?_ ?_ h
  · intro s t h hs
    obtain ⟨i, q, _, _, ⟨_, ho⟩ | ho⟩ := labelStep_ok h <;> cases ho
    exact ends_append hs (ends_of_type nofun)
  · intro s t u h ih hs
    obtain ⟨i, q, _, _, ⟨_, ho⟩ | ho⟩ := labelStep_ok h <;> cases ho
    exact ih (ends_append hs (ends_of_type nofun))

theorem argLoop_ends {line : Nat} {s t : Lexcmd × Text}
    (h : loop (argStep line) left s = .ok t) : (∀ x ∈ s.1, Ends x) → ∀ x ∈ t.1, Ends x := by
  refine loop_ok (P := fun s t => (∀ x ∈ s.1, Ends x) → ∀ x ∈ t.1, Ends x)
    (argStep_left line) ?_ ?_ h
  · intro s t h hs
    obtain ⟨q, _, ho⟩ | ⟨cmd, q, harg, ⟨r, _, ho⟩ | ho⟩ := argStep_ok h <;> cases ho
    · exact hs
    · exact argNext_ends (r := (cmd, q)) harg hs
  · intro s t u h ih hs
    obtain ⟨q, _, ho⟩ | ⟨cmd, q, harg, ⟨r, _, ho⟩ | ho⟩ := argStep_ok h <;> cases ho
    exact ih (argNext_ends (r := (cmd, q)) harg hs)

theorem lexerLine_ends {line : Nat} {p : Text} {r : Option Lexcmd × Text}
    (h : lexerLine line p = .ok r) : ∀ cmd ∈ r.1, ∀ x ∈ cmd, Ends x := by
  simp only [lexerLine] at h
  split at h
  · cases h
    rintro _ ⟨⟩
  · obtain ⟨s, hs, h⟩ := bind_eq_ok.mp h
    obtain ⟨⟨cmd, q⟩, ht, h⟩ := bind_eq_ok.mp h
    cases h
    rintro _ ⟨⟩
    exact argLoop_ends ht (labelLoop_ends hs (List.forall_mem_nil _))

theorem lexer_ends {code : Text} {c : Asmchip32} (h : lexer (.new code) = .ok c) :
    ∀ cmd ∈ c.vcmd, ∀ x ∈ cmd, Ends x :=
  lexer_lines (fun _ _ _ hr => lexerLine_ends hr) h nofun

/-- A token as the lexer leaves it. -/
structure Lexed (tk : Lextoken) : Prop where
  spells : Spells tk.type tk.text
  ends : Ends tk

theorem lexer_lexed {code : Text} {c : Asmchip32} (h : lexer (.new code) = .ok c) :
    ∀ cmd ∈ c.vcmd, ∀ tk ∈ cmd, Lexed tk := by
  intro cmd hcmd tk htk
  obtain ⟨w, hw⟩ := lexer_ok h nofun cmd hcmd
  refine ⟨spells_of_mem (w := w) ?_, lexer_ends h cmd hcmd tk htk⟩
  rw [← hw]
  exact List.mem_map_of_mem htk

theorem not_isSpace {ch : Char} (h : ch.isDigit ∨ ch = '-') : isSpace ch = false := by
  rcases h with h | rfl
  · rw [isDigit_iff_toNat] at h
    have hspace : ch ≠ ' ' := by
      rintro rfl
      exact absurd h.1 (by decide)
    have hret : ¬ ch ≤ '\r' := by
      intro hle
      have hle : ch.toNat ≤ 13 := hle
      omega
    simp [isSpace, hspace, hret]
  · rfl

/-- `strtoul` on digits and whatever is no digit. -/
theorem takeWhile_digits {ds q : Text} (hds : ∀ c ∈ ds, c.isDigit)
    (hq : isDigit (deref q) = false) : (ds ++ q).takeWhile isDigit = ds := by
  rw [List.takeWhile_append_of_pos fun c hc => isDigit_iff.mpr (hds c hc)]
  cases q with
  | nil => simp
  | cons c q => simpa [List.takeWhile_cons] using hq

theorem strtoul_digits {ds q : Text} (hds : ∀ c ∈ ds, c.isDigit) (hne : ds ≠ [])
    (hq : isDigit (deref q) = false) (hfit : Source.decimal ds < 2 ^ 64) :
    strtoul (ds ++ q) = BitVec.ofNat 64 (Source.decimal ds) ∧
      strtoul ('-' :: (ds ++ q)) = -BitVec.ofNat 64 (Source.decimal ds) := by
  have htake := takeWhile_digits hds hq
  obtain ⟨d, ds, rfl⟩ := List.exists_cons_of_ne_nil hne
  have hd : d.isDigit := hds d (by simp)
  have hspace := not_isSpace (.inl hd)
  have hsign : d ≠ '-' ∧ d ≠ '+' := by
    constructor <;> rintro rfl <;> exact absurd hd (by decide)
  have hval : ¬ 2 ^ 64 ≤ digitsValue (d :: ds) := Nat.not_le.mpr hfit
  constructor
  · simp only [strtoul, List.cons_append, List.dropWhile_cons, hspace, Bool.false_eq_true, if_false,
      deref_cons, hsign.1, hsign.2, or_self]
    rw [← List.cons_append, htake, if_neg hval]
    rfl
  · have hminus : isSpace '-' = false := rfl
    simp only [strtoul, List.dropWhile_cons, hminus, Bool.false_eq_true, if_false, deref_cons,
      true_or, if_true, List.tail_cons]
    rw [htake, if_neg hval]
    rfl

theorem number_numeral (n : Source.Numeral) {q : Text} (hq : isDigit (deref q) = false) :
    number (n.text ++ q) = n.word := by
  have hfit : Source.decimal n.digits < 2 ^ 64 := n.fits.1.trans (by decide)
  obtain ⟨hpos, hneg⟩ := strtoul_digits n.digits_ok n.nonempty hq hfit
  rw [number, Source.Numeral.word, Source.Numeral.value, Source.Numeral.text]
  cases n.neg with
  | false =>
    rw [if_neg (by decide), if_neg (by decide), hpos, BitVec.ofInt_natCast]
    apply BitVec.eq_of_toNat_eq
    simp
  | true =>
    rw [if_pos rfl, if_pos rfl, List.cons_append, hneg, BitVec.ofInt_neg, BitVec.ofInt_natCast,
      BitVec.setWidth_neg_of_le (by decide)]
    congr 1
    apply BitVec.eq_of_toNat_eq
    simp

/-- A number token with the text of a decimal has its value. -/
theorem number_of_text {tk : Lextoken} {n : Source.Numeral} (hends : Ends tk)
    (ht : tk.type = .literalNum) (htext : tk.text = n.text) : number tk.start = n.word := by
  obtain ⟨⟨m, hm⟩, hstop⟩ := hends ht
  have hq : isDigit (deref tk.stop) = false := by
    simp only [inInteger, Bool.or_eq_false_iff] at hstop
    exact hstop.1
  have htk : tk.text = m.text := by
    rw [Lextoken.text, hm]
    simp
  rw [hm, ← htk, htext, number_numeral n hq]

theorem start_eq (tk : Lextoken) : ∃ q, tk.start = tk.text ++ q :=
  ⟨_, (List.take_append_drop _ _).symm⟩

theorem strtoul_name (i : Ident) (q : Text) : strtoul (i.text ++ q) = 0 := by
  have hne : ∀ d, ¬ (d.isAlpha ∨ d = '_') → i.head ≠ d := by
    rintro d hd rfl
    exact hd i.head_ok
  refine strtoul_eq_zero ?_ (not_isDigit_of_nameStart i.head_ok)
    ⟨hne '-' (by decide), hne '+' (by decide)⟩
  have hret : ¬ i.head ≤ '\r' := by
    intro hle
    have hle : i.head.toNat ≤ 13 := hle
    rcases i.head_ok with h | h
    · rw [isAlpha_iff_toNat] at h
      omega
    · rw [h] at hle
      exact absurd hle (by decide)
  simp [isSpace, Word.text, hne ' ' (by decide), hret]

/-- Only a number makes `strtoul` find anything. -/
theorem strtoul_spells {type : Tktype} {t : List Char} (h : Spells type t)
    (ht : type ≠ .literalNum) (q : Text) : strtoul (t ++ q) = 0 := by
  cases h with
  | label i => exact strtoul_name i q
  | sigil s => cases s <;> rfl
  | atom a =>
    cases a with
    | auto => rfl
    | number n => exact absurd rfl ht
    | name i => exact strtoul_name i q
    | char b | str b => exact strtoul_eq_zero rfl rfl ⟨nofun, nofun⟩

end Asm
