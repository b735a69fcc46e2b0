import Chip32.Lexer
import Chip32.Grammar
import Mathlib.Data.List.TakeWhile

/-!
# What the lexer's scanners read

Each scanner stops where the item of the grammar ends, provided the character
after it cannot continue the item, and whatever it reads is such an item.
-/
namespace Asm

open Runs Grammar

@[simp] theorem complain_ne_ok {α : Type} {e : String} {p : Text} {a : α} :
    (complain e p : Lex α) ≠ .ok a := nofun

theorem toNat_toLower (c : Char) :
    c.toLower.toNat = if 65 ≤ c.toNat ∧ c.toNat ≤ 90 then c.toNat + 32 else c.toNat := by
  have hA : 'A'.val.toNat = 65 := rfl
  have hZ : 'Z'.val.toNat = 90 := rfl
  have hd : ('a'.val - 'A'.val).toNat = 32 := rfl
  delta Char.toLower
  simp only [Char.toNat, ge_iff_le, UInt32.le_iff_toNat_le, hA, hZ]
  split
  · rw [UInt32.toNat_add, hd]
    omega
  · rfl

theorem lt_iff_toNat (c d : Char) : c < d ↔ c.toNat < d.toNat := Iff.rfl

theorem le_iff_toNat (c d : Char) : c ≤ d ↔ c.toNat ≤ d.toNat := Iff.rfl

theorem isAlpha_iff_toNat (c : Char) :
    c.isAlpha = true ↔ 65 ≤ c.toNat ∧ c.toNat ≤ 90 ∨ 97 ≤ c.toNat ∧ c.toNat ≤ 122 := by
  delta Char.isAlpha Char.isUpper Char.isLower
  simp only [Bool.or_eq_true, Bool.and_eq_true, decide_eq_true_eq]
  exact Iff.rfl

theorem isDigit_iff_toNat (c : Char) : c.isDigit = true ↔ 48 ≤ c.toNat ∧ c.toNat ≤ 57 := by
  simp only [Char.isDigit, Bool.and_eq_true, decide_eq_true_eq]
  exact Iff.rfl

theorem isBlank_iff {c : Char} : isBlank c = true ↔ Blank c := by
  simp [isBlank, Blank]

theorem isDigit_iff {c : Char} : isDigit c = true ↔ c.isDigit := by
  simp [isDigit, Char.isDigit, Char.le_def]

theorem inInteger_iff {c : Char} : inInteger c = true ↔ c.isDigit ∨ c = '-' := by
  simp [inInteger, isDigit_iff]

theorem inName_iff {c : Char} : inName c = true ↔ c.isAlphanum ∨ c = '_' := by
  simp [inName, isDigit_iff, Char.isAlphanum, isAlpha_iff_toNat, le_iff_toNat]

/-- The case labels of `a32_arg_next` for a name. -/
theorem letter_iff {c : Char} :
    (('a' ≤ c && c ≤ 'z') || ('A' ≤ c && c ≤ 'Z') || c = '_') = true ↔ c.isAlpha ∨ c = '_' := by
  simp [isAlpha_iff_toNat, le_iff_toNat, or_comm]

theorem not_isDigit_of_nameStart {c : Char} (h : c.isAlpha ∨ c = '_') : isDigit c = false := by
  rcases h with h | rfl
  · rw [isAlpha_iff_toNat] at h
    rw [Bool.eq_false_iff, ne_eq, isDigit_iff, isDigit_iff_toNat]
    omega
  · rfl

/-- The check of `a32_token_name_next` lets letters and `_` pass. -/
theorem nameStart_iff {c : Char} :
    ¬ ((c.toLower < 'a' ∨ c.toLower > 'z') ∧ c ≠ '_') ↔ c.isAlpha ∨ c = '_' := by
  have ha : 'a'.toNat = 97 := rfl
  have hz : 'z'.toNat = 122 := rfl
  have hlow := toNat_toLower c
  simp only [gt_iff_lt, lt_iff_toNat, isAlpha_iff_toNat, ha, hz]
  split at hlow <;> by_cases h : c = '_' <;> simp [h] <;> omega

/-- The check of `a32_token_integer` lets digits and `-` pass. -/
theorem integerStart_iff {c : Char} :
    ¬ ((c.toLower < '0' ∨ c.toLower > '9') ∧ c ≠ '-') ↔ c.isDigit ∨ c = '-' := by
  have h0 : '0'.toNat = 48 := rfl
  have h9 : '9'.toNat = 57 := rfl
  have hlow := toNat_toLower c
  simp only [gt_iff_lt, lt_iff_toNat, isDigit_iff_toNat, h0, h9]
  split at hlow <;> by_cases h : c = '-' <;> simp [h] <;> omega

theorem dropWhile_run {p : Char → Bool} {xs q : Text} (hx : ∀ c ∈ xs, p c = true)
    (hq : p (deref q) = false) : (xs ++ q).dropWhile p = q := by
  rw [List.dropWhile_append_of_pos hx]
  cases q with
  | nil => rfl
  | cons c q => exact List.dropWhile_cons_of_neg (by simpa using hq)

theorem exists_run (p : Char → Bool) (l : Text) :
    ∃ xs, l = xs ++ l.dropWhile p ∧ ∀ c ∈ xs, p c = true :=
  ⟨l.takeWhile p, (List.takeWhile_append_dropWhile).symm, fun _ => List.mem_takeWhile_imp⟩

theorem deref_dropWhile {p : Char → Bool} (hn : p nul = false) (l : Text) :
    p (deref (l.dropWhile p)) = false := by
  induction l with
  | nil => exact hn
  | cons c l ih =>
    rw [List.dropWhile_cons]
    split
    next => exact ih
    next hc => simpa using hc

theorem exists_blanks (p : Text) : ∃ b, Blanks b ∧ p = b ++ skipSpace p :=
  ⟨p.takeWhile isBlank, fun _ hc => isBlank_iff.mp (List.mem_takeWhile_imp hc),
    List.takeWhile_append_dropWhile.symm⟩

theorem skipSpace_blanks {b q : Text} (hb : Blanks b) (hq : isBlank (deref q) = false) :
    skipSpace (b ++ q) = q :=
  dropWhile_run (fun c hc => isBlank_iff.mpr (hb c hc)) hq

theorem endl_eol {e : Text} (he : Eol e) (t : Text) : endl (e ++ t) = some t := by
  cases he with
  | newline => rfl
  | comment c hc =>
    have hskip : skipComment (';' :: (c ++ ['\n'] ++ t)) = '\n' :: t := by
      have hall : ∀ x ∈ ';' :: c, (x ≠ nul && x ≠ '\n') = true := by
        intro x hx
        rcases List.mem_cons.mp hx with rfl | hx
        · rfl
        · simp [hc x hx]
      simpa [skipComment] using dropWhile_run hall (q := '\n' :: t) rfl
    simp only [List.cons_append, endl, hskip]
    rfl

/-- A line ends only at NUL, newline or comment. -/
theorem endl_eq_none {p : Text}
    (h : deref p ≠ nul ∧ deref p ≠ '\n' ∧ deref p ≠ ';') : endl p = none := by
  cases p with
  | nil => exact absurd rfl h.1
  | cons c p =>
    obtain ⟨hn, hl, hs⟩ := h
    simp only [deref_cons] at hn hl hs
    unfold endl
    split
    · contradiction
    · simp_all [nul]
    · simp_all
    · simp_all
    · rfl

theorem length_skipSpace_le (p : Text) : (skipSpace p).length ≤ p.length :=
  List.length_dropWhile_le _ _

/-- Where a line ends, it ends behind at least one character, unless at the NUL. -/
theorem endl_length {p q : Text} (h : endl p = some q) :
    q.length ≤ p.length ∧ (deref p ≠ nul → q.length < p.length) := by
  unfold endl at h
  split at h
  · cases h
    exact ⟨le_rfl, fun hn => absurd rfl hn⟩
  · cases h
    exact ⟨le_rfl, fun hn => absurd rfl hn⟩
  · cases h
    simp
  next p =>
    have hskip : (skipComment (';' :: p)).length ≤ p.length :=
      List.length_dropWhile_le (fun c => c ≠ nul && c ≠ '\n') p
    have hq : q.length ≤ (skipComment (';' :: p)).length := by
      rw [← Option.some.inj h]
      split_ifs <;> simp
    rw [List.length_cons]
    omega
  · cases h

theorem tokenWord_iff {wrong : Char → Prop} [DecidablePred wrong] {error : String}
    {inside : Char → Bool} {first next : Char → Prop} (hfirst : ∀ c, ¬ wrong c ↔ first c)
    (hinside : ∀ c, inside c = true ↔ next c) (hsub : ∀ c, first c → next c)
    (hnul : inside nul = false) {p q : Text} :
    tokenWord wrong error inside p = .ok q ↔
      ∃ w : Word first next, p = w.text ++ q ∧ inside (deref q) = false := by
  constructor
  · intro h
    simp only [tokenWord] at h
    split at h
    next => exact absurd h complain_ne_ok
    next hw =>
      have hhead := (hfirst _).mp hw
      obtain ⟨xs, hp, hxs⟩ := exists_run inside p
      split at h
      next => exact absurd h complain_ne_ok
      next hlen =>
        cases h
        cases xs with
        | nil =>
          rw [List.nil_append] at hp
          exact absurd (congrArg List.length hp) hlen
        | cons x xs =>
          rw [hp] at hhead
          refine ⟨⟨x, xs, hhead, fun c hc => (hinside c).mp (hxs c (by simp [hc]))⟩, hp, ?_⟩
          exact deref_dropWhile hnul p
  · rintro ⟨w, rfl, hq⟩
    have hall : ∀ c ∈ w.text, inside c = true := by
      intro c hc
      rcases List.mem_cons.mp hc with rfl | hc
      · exact (hinside _).mpr (hsub _ w.head_ok)
      · exact (hinside c).mpr (w.tail_ok c hc)
    have hw : ¬ wrong (deref (w.text ++ q)) := (hfirst _).mpr w.head_ok
    rw [tokenWord, if_neg hw, dropWhile_run hall hq, if_neg (by simp [Word.text]; omega)]

theorem tokenNameNext_iff {p q : Text} :
    tokenNameNext p = .ok q ↔ ∃ i : Ident, p = i.text ++ q ∧ inName (deref q) = false := by
  apply tokenWord_iff
  · exact fun c => nameStart_iff
  · exact fun c => inName_iff
  · rintro c (h | h)
    · exact .inl (by simp [Char.isAlphanum, h])
    · exact .inr h
  · rfl

theorem tokenInteger_iff {p q : Text} :
    tokenInteger p = .ok q ↔ ∃ n : Number, p = n.text ++ q ∧ inInteger (deref q) = false := by
  apply tokenWord_iff
  · exact fun c => integerStart_iff
  · exact fun c => inInteger_iff
  · exact fun c h => h
  · rfl

section Quote

variable {quote : Char}

theorem quoteLoop_stop {c : Char} (p : Text) (h : c = nul ∨ c = quote) :
    quoteLoop quote (c :: p) = c :: p := by
  cases p <;> simp [quoteLoop, h]

theorem quoteLoop_plain {c : Char} (p : Text) (h : c ≠ quote ∧ c ≠ '\\' ∧ c ≠ nul) :
    quoteLoop quote (c :: p) = quoteLoop quote p := by
  cases p <;> simp [quoteLoop, h]

theorem quoteLoop_escape {c : Char} (p : Text) (hq : quote ≠ '\\') (h : c ≠ nul) :
    quoteLoop quote ('\\' :: c :: p) = quoteLoop quote p := by
  have hn : '\\' ≠ nul := by decide
  simp [quoteLoop, h, hn, hq.symm]

theorem quoteLoop_body (hq : quote ≠ '\\') (b : Body quote) (q : Text) :
    quoteLoop quote (b.text ++ quote :: q) = quote :: q := by
  induction b with
  | nil => exact quoteLoop_stop q (.inr rfl)
  | cons x b ih =>
    cases x with
    | plain c h => exact (quoteLoop_plain _ h).trans ih
    | escape c h => exact (quoteLoop_escape _ hq h).trans ih

/-- The loop stops behind a body, wherever it stops. -/
theorem exists_body (p : Text) (h : deref (quoteLoop quote p) = quote) (hn : quote ≠ nul) :
    ∃ b : Body quote, p = b.text ++ quoteLoop quote p := by
  fun_induction quoteLoop quote p with
  | case1 => exact absurd h.symm hn
  | case2 c hc => exact ⟨[], rfl⟩
  | case3 c hc => exact absurd h.symm hn
  | case4 c d p hc => exact ⟨[], rfl⟩
  | case5 c d p hc he ih =>
    obtain ⟨b, hb⟩ := ih h
    obtain ⟨rfl, hd⟩ := he
    exact ⟨.escape d hd :: b, by rw [Body.text_cons, Piece.text, List.append_assoc, ← hb]; rfl⟩
  | case6 c d p hc he ih =>
    obtain ⟨b, hb⟩ := ih h
    have hc' : c ≠ '\\' := by
      rintro rfl
      obtain rfl : d = nul := by simpa using he
      rw [quoteLoop_stop p (.inl rfl)] at h
      exact hn h.symm
    refine ⟨.plain c ⟨fun e => hc (.inr e), hc', fun e => hc (.inl e)⟩ :: b, ?_⟩
    rw [Body.text_cons, Piece.text, List.append_assoc, ← hb]
    rfl

theorem tokenQuote_cons (p : Text) :
    tokenQuote (quote :: p) =
      if (quote :: p).length = (quoteLoop quote p).length ∨ deref (quoteLoop quote p) ≠ quote then
        complain ("missing terminator of " ++ String.singleton quote) (quote :: p)
      else .ok (quoteLoop quote p).tail := rfl

theorem tokenQuote_iff (hq : quote ≠ '\\') (hn : quote ≠ nul) {p q : Text} :
    tokenQuote (quote :: p) = .ok q ↔ ∃ b : Body quote, quote :: p = b.quoted ++ q := by
  rw [tokenQuote_cons]
  constructor
  · intro h
    split_ifs at h with hc
    · exact absurd h complain_ne_ok
    · cases h
      have hd := not_not.mp fun e => hc (.inr e)
      obtain ⟨b, hb⟩ := exists_body p hd hn
      refine ⟨b, ?_⟩
      cases hl : quoteLoop quote p with
      | nil => exact absurd (by rw [hl] at hd; exact hd.symm) hn
      | cons c r =>
        rw [hl] at hb hd
        cases hd
        rw [hb]
        simp [Body.quoted]
  · rintro ⟨b, hb⟩
    obtain rfl : p = b.text ++ quote :: q := by simpa [Body.quoted] using hb
    rw [quoteLoop_body hq, if_neg (by simp; omega)]
    rfl

end Quote

end Asm
