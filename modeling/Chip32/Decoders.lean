import Chip32.Base64

/-!
# The decoders on any string

`quote_printable_decode` of `str.c`, and `base64_decode` with an allocation that may fail.
A pointer into the source is again what follows it, up to the final zero. The first one
trusts a `=` to have two characters behind it, the second one trusts the string to be four
characters long.
-/
namespace Decoders

open Base64 Runs

def isSpace (b : Byte) : Bool := b = byte ' ' || (byte '\t' ≤ b && b ≤ byte '\r')

def hexDigit (b : Byte) : Option Nat :=
  if byte '0' ≤ b ∧ b ≤ byte '9' then some (b.toNat - '0'.toNat)
  else if byte 'a' ≤ b ∧ b ≤ byte 'f' then some (b.toNat - 'a'.toNat + 10)
  else if byte 'A' ≤ b ∧ b ≤ byte 'F' then some (b.toNat - 'A'.toNat + 10)
  else none

/-- The digits up to the first other character. -/
def hexValue : Nat → List Byte → Nat
  | n, [] => n
  | n, b :: p =>
    match hexDigit b with
    | some d => hexValue (16 * n + d) p
    | none => n

/-- What stands behind `0x`, when a digit does. -/
def skipPrefix : List Byte → List Byte
  | zero :: x :: b :: p =>
    if zero = byte '0' ∧ (x = byte 'x' ∨ x = byte 'X') ∧ (hexDigit b).isSome then b :: p
    else zero :: x :: b :: p
  | p => p

/-- `strtoul` in base 16. -/
def strtoul (p : List Byte) : BitVec 64 :=
  let p := p.dropWhile isSpace
  let sign := p.head?
  let digits := if sign = some (byte '-') ∨ sign = some (byte '+') then p.tail else p
  let n := hexValue 0 (skipPrefix digits)
  if 2 ^ 64 ≤ n then BitVec.allOnes 64
  else if sign = some (byte '-') then -BitVec.ofNat 64 n else BitVec.ofNat 64 n

/-- What follows a `=`: the byte it stands for, none at the end of a line, and the string
behind it. -/
def afterEqual (str : List Byte) : Checked (Option Byte × List Byte) := do
  let ch ← load str 0
  let str := if ch = byte '\r' then str.drop 1 else str
  let ch ← load str 0
  if ch = byte '\n' then pure (none, str.drop 1)
  else
    let val0 ← load str 0
    let val1 ← load str 1
    pure (some ((strtoul [val0, val1, 0]).setWidth 8), str.drop 2)

theorem load_zero {p : List Byte} {b : Byte} (h : load p 0 = .ok b) : ∃ q, p = b :: q := by
  cases p with
  | nil => cases h
  | cons c q => exact ⟨q, by cases h; rfl⟩

theorem load_one {b : Byte} {p : List Byte} {c : Byte} (h : load (b :: p) 1 = .ok c) :
    ∃ q, p = c :: q := load_zero h

/-- The optional carriage return, and then a line feed or two characters of any kind. -/
theorem afterEqual_cases {str q : List Byte} {b : Option Byte}
    (h : afterEqual str = .ok (b, q)) :
    ∃ cr, (cr = [] ∨ cr = [byte '\r']) ∧
      (str = cr ++ byte '\n' :: q ∧ b = none ∨
        ∃ val0 val1, str = cr ++ val0 :: val1 :: q ∧ val0 ≠ byte '\n' ∧
          (cr = [] → val0 ≠ byte '\r') ∧ b = some ((strtoul [val0, val1, 0]).setWidth 8)) := by
  obtain ⟨ch, hch, h⟩ := bind_eq_ok.mp h
  obtain ⟨p, rfl⟩ := load_zero hch
  obtain ⟨cr, hcr, rest, hstr, hskip, hfirst⟩ : ∃ cr, (cr = [] ∨ cr = [byte '\r']) ∧ ∃ rest,
      ch :: p = cr ++ rest ∧ (if ch = byte '\r' then (ch :: p).drop 1 else ch :: p) = rest ∧
      (cr = [] → rest.head? ≠ some (byte '\r')) := by
    by_cases hret : ch = byte '\r'
    · exact ⟨[byte '\r'], .inr rfl, p, by rw [hret]; rfl, if_pos hret, by simp⟩
    · exact ⟨[], .inl rfl, ch :: p, rfl, if_neg hret, by simpa using hret⟩
  refine ⟨cr, hcr, ?_⟩
  simp only [hskip] at h
  obtain ⟨first, hload, h⟩ := bind_eq_ok.mp h
  obtain ⟨rest, rfl⟩ := load_zero hload
  by_cases hline : first = byte '\n'
  · rw [if_pos hline] at h
    cases h
    exact .inl ⟨by rw [hstr, hline]; rfl, rfl⟩
  · rw [if_neg hline] at h
    simp only [hload, ok_bind] at h
    obtain ⟨second, hsecond, h⟩ := bind_eq_ok.mp h
    obtain ⟨rest, rfl⟩ := load_one hsecond
    cases h
    exact .inr ⟨first, second, hstr, hline, by simpa using hfirst, rfl⟩

theorem afterEqual_length {str q : List Byte} {b : Option Byte}
    (h : afterEqual str = .ok (b, q)) : q.length < str.length := by
  obtain ⟨cr, -, ⟨rfl, -⟩ | ⟨val0, val1, rfl, -⟩⟩ := afterEqual_cases h
  · simp only [List.length_append, List.length_cons]
    omega
  · simp only [List.length_append, List.length_cons]
    omega

/-- The loop, at `str`, with the bytes of `out` written. -/
def quoteLoop (size : Nat) (str out : List Byte) : Checked (List Byte) :=
  match str with
  | [] => .error .read
  | ch :: str =>
    if ch = 0 then .ok out
    else if ch ≠ byte '=' then do
      let out ← put size out ch
      quoteLoop size str out
    else
      match _h : afterEqual str with
      | .error e => .error e
      | .ok (none, q) => quoteLoop size q out
      | .ok (some b, q) => do
        let out ← put size out b
        quoteLoop size q out
termination_by str.length
decreasing_by
  · exact Nat.lt_succ_self _
  · exact Nat.lt_succ_of_lt (afterEqual_length _h)
  · exact Nat.lt_succ_of_lt (afterEqual_length _h)

/-- `quote_printable_decode` of the string `s`: `*len`, and the bytes written. -/
def quotePrintableDecode (malloc : Nat → Bool) (s : List Byte) :
    Checked (Option (Nat × List Byte)) := do
  let strsize := s.length
  if malloc (strsize + 1) then
    let next ← quoteLoop (strsize + 1) (s ++ [0]) []
    let ret ← put (strsize + 1) next 0
    pure (some (next.length, ret))
  else pure none

/-- Behind every `=`, and a carriage return it may have, the line ends or two characters of
an escape stand. -/
inductive Quoted : List Byte → Prop where
  | nil : Quoted []
  | plain (ch : Byte) (s : List Byte) : ch ≠ byte '=' → Quoted s → Quoted (ch :: s)
  | line (cr s : List Byte) : cr = [] ∨ cr = [byte '\r'] → Quoted s →
      Quoted (byte '=' :: (cr ++ byte '\n' :: s))
  | escape (cr : List Byte) (val0 val1 : Byte) (s : List Byte) :
      cr = [] ∨ cr = [byte '\r'] → val0 ≠ byte '\n' → (cr = [] → val0 ≠ byte '\r') →
      Quoted s → Quoted (byte '=' :: (cr ++ val0 :: val1 :: s))

section

variable (size : Nat) (out : List Byte)

theorem quoteLoop_zero (p : List Byte) : quoteLoop size (0 :: p) out = .ok out := by
  rw [quoteLoop, if_pos rfl]

theorem quoteLoop_plain {ch : Byte} (hzero : ch ≠ 0) (hequal : ch ≠ byte '=') (p : List Byte) :
    quoteLoop size (ch :: p) out = put size out ch >>= quoteLoop size p := by
  rw [quoteLoop, if_neg hzero, if_pos hequal]

theorem quoteLoop_equal {p q : List Byte} {b : Option Byte} (h : afterEqual p = .ok (b, q)) :
    quoteLoop size (byte '=' :: p) out =
      match b with
      | none => quoteLoop size q out
      | some b => put size out b >>= quoteLoop size q := by
  rw [quoteLoop, if_neg (by decide), if_neg (not_not_intro rfl)]
  split
  · next e he => rw [h] at he; cases he
  · next r hr => rw [h] at hr; cases hr; rfl
  · next c r hr => rw [h] at hr; cases hr; rfl

end

theorem afterEqual_line {cr : List Byte} (hcr : cr = [] ∨ cr = [byte '\r']) (q : List Byte) :
    afterEqual (cr ++ byte '\n' :: q) = .ok (none, q) := by
  rcases hcr with rfl | rfl
  · rfl
  · rfl

theorem afterEqual_escape {cr : List Byte} (hcr : cr = [] ∨ cr = [byte '\r']) {val0 : Byte}
    (hline : val0 ≠ byte '\n') (hret : cr = [] → val0 ≠ byte '\r') (val1 : Byte)
    (q : List Byte) :
    afterEqual (cr ++ val0 :: val1 :: q) =
      .ok (some ((strtoul [val0, val1, 0]).setWidth 8), q) := by
  rcases hcr with rfl | rfl
  · simp [afterEqual, load, hline, hret rfl]
  · simp [afterEqual, load, hline]

/-- On a complete string the loop reaches the final zero, and writes no more than it reads. -/
theorem quoteLoop_quoted {size : Nat} {s : List Byte} (h : Quoted s) (hzero : 0 ∉ s)
    {out : List Byte} (hsize : out.length + s.length ≤ size) :
    ∃ w, quoteLoop size (s ++ [0]) out = .ok (out ++ w) ∧ w.length ≤ s.length := by
  induction h generalizing out with
  | nil => exact ⟨[], by rw [List.nil_append, quoteLoop_zero, List.append_nil], Nat.le_refl _⟩
  | plain ch s hequal _ ih =>
    rw [List.length_cons] at hsize
    rw [List.mem_cons, not_or] at hzero
    obtain ⟨w, hw, hlen⟩ := @ih hzero.2 (out ++ [ch]) (by simp; omega)
    refine ⟨ch :: w, ?_, Nat.succ_le_succ hlen⟩
    rw [List.cons_append, quoteLoop_plain size out (Ne.symm hzero.1) hequal, put_ok (by omega),
      ok_bind, hw, List.append_assoc, List.singleton_append]
  | line cr s hcr _ ih =>
    simp only [List.length_cons, List.length_append] at hsize
    simp only [List.mem_cons, List.mem_append, not_or] at hzero
    obtain ⟨w, hw, hlen⟩ := @ih hzero.2.2.2 out (by omega)
    refine ⟨w, ?_, by simp only [List.length_cons, List.length_append]; omega⟩
    rw [List.cons_append, List.append_assoc, List.cons_append,
      quoteLoop_equal size out (afterEqual_line hcr _)]
    exact hw
  | escape cr val0 val1 s hcr hline hret _ ih =>
    simp only [List.length_cons, List.length_append] at hsize
    simp only [List.mem_cons, List.mem_append, not_or] at hzero
    obtain ⟨w, hw, hlen⟩ := @ih hzero.2.2.2.2
      (out ++ [(strtoul [val0, val1, 0]).setWidth 8]) (by simp; omega)
    refine ⟨(strtoul [val0, val1, 0]).setWidth 8 :: w, ?_,
      by simp only [List.length_cons, List.length_append]; omega⟩
    rw [List.cons_append, List.append_assoc, List.cons_append, List.cons_append,
      quoteLoop_equal size out (afterEqual_escape hcr hline hret val1 _)]
    change put size out _ >>= _ = _
    rw [put_ok (by omega), ok_bind, hw, List.append_assoc, List.singleton_append]

/-- A run through a `=` gets past it. -/
theorem quoteLoop_past {size : Nat} {p out r : List Byte}
    (h : quoteLoop size (byte '=' :: p) out = .ok r) :
    ∃ b q out', afterEqual p = .ok (b, q) ∧ quoteLoop size q out' = .ok r := by
  rw [quoteLoop, if_neg (by decide), if_neg (not_not_intro rfl)] at h
  split at h
  · cases h
  · next q hq => exact ⟨none, q, out, hq, h⟩
  · next b q hq =>
    obtain ⟨out', -, h⟩ := bind_eq_ok.mp h
    exact ⟨some b, q, out', hq, h⟩

/-- The final zero is in what a piece leaves, unless it leaves nothing. -/
theorem split_behind {s u q : List Byte} (h : s ++ [0] = u ++ q) (hq : q ≠ []) :
    ∃ t, s = u ++ t ∧ q = t ++ [0] := by
  obtain ⟨t, b, rfl⟩ := List.eq_nil_or_concat q |>.resolve_left hq
  rw [List.concat_eq_append, ← List.append_assoc] at h
  obtain ⟨hs, hb⟩ := List.append_inj' h rfl
  exact ⟨t, hs, by rw [List.concat_eq_append, hb]⟩

/-- The loop reads past the final zero of any other string. -/
theorem quoted_of_quoteLoop {size : Nat} {s out r : List Byte} (hzero : 0 ∉ s)
    (h : quoteLoop size (s ++ [0]) out = .ok r) : Quoted s := by
  -- by the length of what is left, for a step takes up to four characters
  induction hn : s.length using Nat.strong_induction_on generalizing s out with
  | _ n ih =>
    cases s with
    | nil => exact .nil
    | cons ch p =>
      subst hn
      rw [List.mem_cons, not_or] at hzero
      by_cases hequal : ch = byte '='
      · subst hequal
        obtain ⟨b, q, out', hq, h⟩ := quoteLoop_past h
        -- what took the final zero for a character leaves nothing to go on with
        have hne : q ≠ [] := by
          rintro rfl
          rw [quoteLoop] at h
          cases h
        obtain ⟨cr, hcr, ⟨hp, -⟩ | ⟨val0, val1, hp, hline, hret, -⟩⟩ := afterEqual_cases hq
        · obtain ⟨t, rfl, rfl⟩ := @split_behind p (cr ++ [byte '\n']) q (by simpa using hp) hne
          have ht := ih t.length (by simp; omega) (by simp_all) h rfl
          simpa using Quoted.line cr t hcr ht
        · obtain ⟨t, rfl, rfl⟩ := @split_behind p (cr ++ [val0, val1]) q (by simpa using hp) hne
          have ht := ih t.length (by simp; omega) (by simp_all) h rfl
          simpa using Quoted.escape cr val0 val1 t hcr hline hret ht
      · rw [List.cons_append, quoteLoop_plain size out (Ne.symm hzero.1) hequal] at h
        obtain ⟨out', -, h⟩ := bind_eq_ok.mp h
        exact .plain ch p hequal (ih p.length (Nat.lt_succ_self _) hzero.2 h rfl)

/-- No access out of bounds, and no more written than was allocated. -/
def QuoteInBounds (malloc : Nat → Bool) (s : List Byte) : Prop :=
  ∃ ret, quotePrintableDecode malloc s = .ok ret ∧
    ∀ len out, ret = some (len, out) → out.length ≤ s.length + 1

theorem quoteInBounds_iff (malloc : Nat → Bool) {s : List Byte} (hzero : 0 ∉ s) :
    QuoteInBounds malloc s ↔ malloc (s.length + 1) = false ∨ Quoted s := by
  cases hm : malloc (s.length + 1) with
  | false =>
    have hret : quotePrintableDecode malloc s = .ok none := by
      simp only [quotePrintableDecode, hm]
      rfl
    refine ⟨fun _ => .inl rfl, fun _ => ⟨none, hret, ?_⟩⟩
    intro len out h
    cases h
  | true =>
    have hret : quotePrintableDecode malloc s =
        (quoteLoop (s.length + 1) (s ++ [0]) [] >>= fun next =>
          put (s.length + 1) next 0 >>= fun ret => pure (some (next.length, ret))) := by
      simp only [quotePrintableDecode, hm, if_true]
    constructor
    · rintro ⟨ret, h, -⟩
      rw [hret] at h
      obtain ⟨next, h, -⟩ := bind_eq_ok.mp h
      exact .inr (quoted_of_quoteLoop hzero h)
    · intro h
      have hquoted := h.resolve_left (by decide)
      obtain ⟨w, hw, hlen⟩ := @quoteLoop_quoted (s.length + 1) s hquoted hzero []
        (by rw [List.length_nil]; omega)
      refine ⟨some (w.length, w ++ [0]), ?_, ?_⟩
      · rw [hret, hw, ok_bind, List.nil_append, put_ok (by omega)]
        rfl
      · intro len out h
        cases h
        rw [List.length_append, List.length_singleton]
        omega

/-- `base64_decode` of the string `b64`: `*size`, and the bytes written when that much was
allocated. -/
def base64DecodeOn (malloc : Nat → Bool) (b64 : List Byte) :
    Checked (Nat × Option (List Byte)) := do
  let str := b64 ++ [0]
  let len := b64.length
  let last ← load str (sizeSub len 1)
  let before ← load str (sizeSub len 2)
  let una := (if last = byte '=' then 1 else 0) + (if before = byte '=' then 1 else 0)
  let countali := sizeSub (len / 4 * 3) una
  if malloc countali then
    let count := sizeSub (len / 4) 1
    let (str, next) ← decodeLoop countali count str []
    let next ← decodeTail countali una str next
    pure (countali, some next)
  else pure (countali, none)

/-- With memory at hand it is the decoder of the round trip. -/
theorem base64DecodeOn_allocated (b64 : List Byte) :
    base64DecodeOn (fun _ => true) b64 =
      (fun ret => (ret.1, some ret.2)) <$> base64Decode b64 := by
  simp only [base64DecodeOn, base64Decode, if_true, map_bind, map_pure]

/-- A character the table has an entry for. -/
def Coded (ch : Byte) : Prop := ∃ v, dt ch = .ok v

theorem exists_group {p : List Byte} (h : 4 ≤ p.length) :
    ∃ a b c d q, p = a :: b :: c :: d :: q := by
  have hp : p.take 4 ++ p.drop 4 = p := List.take_append_drop 4 p
  obtain ⟨a, b, c, d, hgroup⟩ := List.length_eq_four.mp (List.length_take_of_le h)
  exact ⟨a, b, c, d, p.drop 4, by rw [← hp, hgroup]; rfl⟩

/-- The loop takes four characters of the table for three bytes. -/
theorem decodeLoop_coded {size count : Nat} {p : List Byte} (hcoded : ∀ ch ∈ p, Coded ch)
    (hp : 4 * count ≤ p.length) (q : List Byte) {out : List Byte}
    (h : out.length + 3 * count ≤ size) :
    ∃ w, decodeLoop size count (p ++ q) out = .ok (p.drop (4 * count) ++ q, out ++ w) ∧
      w.length = 3 * count := by
  induction count generalizing p out with
  | zero => exact ⟨[], by simp [decodeLoop], rfl⟩
  | succ count ih =>
    obtain ⟨a, b, c, d, p, rfl⟩ := @exists_group p (by omega)
    simp only [List.mem_cons, forall_eq_or_imp] at hcoded
    obtain ⟨⟨va, ha⟩, ⟨vb, hb⟩, ⟨vc, hc⟩, ⟨vd, hd⟩, hrest⟩ := hcoded
    simp only [List.length_cons] at hp
    obtain ⟨w, hw, hlen⟩ := @ih p hrest (by omega)
      (out ++ [(va <<< 2) ||| (vb >>> 4)] ++ [(vb <<< 4) ||| (vc >>> 2)] ++
        [(vc <<< 6) ||| vd]) (by simp; omega)
    refine ⟨[(va <<< 2) ||| (vb >>> 4), (vb <<< 4) ||| (vc >>> 2), (vc <<< 6) ||| vd] ++ w,
      ?_, by simp; omega⟩
    simp only [List.cons_append]
    rw [decodeLoop, decode0_dt (by omega) ha hb, ok_bind, decode1_dt (by simp; omega) hb hc,
      ok_bind, decode2_dt (by simp; omega) hc hd, ok_bind]
    change decodeLoop size count (p ++ q) _ = _
    rw [hw, show 4 * (count + 1) = 4 * count + 4 by omega]
    simp

/-- The `switch` takes the last group. -/
theorem decodeTail_coded {size una : Nat} (huna : una ≤ 2) {p : List Byte}
    (hcoded : ∀ ch ∈ p, Coded ch) (hp : 4 ≤ p.length) (q : List Byte) {out : List Byte}
    (h : out.length + (3 - una) ≤ size) :
    ∃ w, decodeTail size una (p ++ q) out = .ok (out ++ w) ∧ w.length = 3 - una := by
  obtain ⟨a, b, c, d, p, rfl⟩ := exists_group hp
  simp only [List.mem_cons, forall_eq_or_imp] at hcoded
  obtain ⟨⟨va, ha⟩, ⟨vb, hb⟩, ⟨vc, hc⟩, ⟨vd, hd⟩, -⟩ := hcoded
  simp only [List.cons_append]
  obtain rfl | rfl | rfl : una = 0 ∨ una = 1 ∨ una = 2 := by omega
  · refine ⟨[(va <<< 2) ||| (vb >>> 4), (vb <<< 4) ||| (vc >>> 2), (vc <<< 6) ||| vd], ?_, rfl⟩
    rw [decodeTail, decode0_dt (by omega) ha hb, ok_bind, decode1_dt (by simp; omega) hb hc,
      ok_bind, decode2_dt (by simp; omega) hc hd, List.append_assoc, List.append_assoc]
    rfl
  · refine ⟨[(va <<< 2) ||| (vb >>> 4), (vb <<< 4) ||| (vc >>> 2)], ?_, rfl⟩
    rw [decodeTail, decode0_dt (by omega) ha hb, ok_bind, decode1_dt (by simp; omega) hb hc,
      List.append_assoc]
    rfl
  · refine ⟨[(va <<< 2) ||| (vb >>> 4)], ?_, rfl⟩
    rw [decodeTail, decode0_dt (by omega) ha hb]

/-- One of the sixty-four characters. -/
def Alphabet (ch : Byte) : Prop := ∃ i, Six i ∧ ch = sextet i

/-- Characters of the alphabet and the padding behind them. -/
def padded (body : List Byte) (k : Nat) : List Byte := body ++ List.replicate k (byte '=')

section

variable {body : List Byte} (hbody : ∀ ch ∈ body, Alphabet ch) (k : Nat)

theorem padded_length (body : List Byte) (k : Nat) : (padded body k).length = body.length + k := by
  rw [padded, List.length_append, List.length_replicate]

include hbody

theorem padded_coded : ∀ ch ∈ padded body k, Coded ch := by
  intro ch hch
  rcases List.mem_append.mp hch with hch | hch
  · obtain ⟨i, hi, rfl⟩ := hbody ch hch
    exact ⟨i, hi.dt_sextet⟩
  · rw [List.eq_of_mem_replicate hch]
    exact ⟨0, by decide⟩

/-- The padding is what stands behind the body. -/
theorem load_padded {i : Nat} (hi : i < body.length + k) :
    ∃ ch, load (padded body k ++ [0]) i = .ok ch ∧ (ch = byte '=' ↔ body.length ≤ i) := by
  by_cases h : i < body.length
  · obtain ⟨j, hj, hch⟩ := hbody body[i] (List.getElem_mem h)
    refine ⟨body[i], ?_, iff_of_false (hch ▸ hj.tables.2.1) (by omega)⟩
    rw [load, padded, List.append_assoc, List.getElem?_append_left h, List.getElem?_eq_getElem h]
  · obtain ⟨j, rfl⟩ := Nat.exists_eq_add_of_le (Nat.le_of_not_lt h)
    refine ⟨byte '=', ?_, iff_of_true rfl (Nat.le_add_right ..)⟩
    rw [padded, List.append_assoc, load_behind, load,
      List.getElem?_append_left (by rw [List.length_replicate]; omega),
      List.getElem?_replicate_of_lt (by omega)]

/-- Past the first reads, `una` counts at most two characters of padding. -/
theorem base64DecodeOn_padded (malloc : Nat → Bool) (hlen : 2 ≤ body.length + k) {size : Nat}
    (hsize : size = sizeSub ((body.length + k) / 4 * 3) (min k 2)) :
    base64DecodeOn malloc (padded body k) =
      if malloc size then
        decodeLoop size (sizeSub ((body.length + k) / 4) 1) (padded body k ++ [0]) [] >>= fun ret =>
          decodeTail size (min k 2) ret.1 ret.2 >>= fun next => pure (size, some next)
      else pure (size, none) := by
  have hfirst : sizeSub (body.length + k) 1 = body.length + k - 1 := if_pos (by omega)
  have hsecond : sizeSub (body.length + k) 2 = body.length + k - 2 := if_pos (by omega)
  obtain ⟨last, hlast, hlast'⟩ := load_padded hbody k (i := body.length + k - 1) (by omega)
  obtain ⟨before, hbefore, hbefore'⟩ := load_padded hbody k (i := body.length + k - 2) (by omega)
  have huna : (if last = byte '=' then 1 else 0) + (if before = byte '=' then 1 else 0) =
      min k 2 := by
    simp only [hlast', hbefore']
    split
    · split <;> omega
    · split <;> omega
  simp only [base64DecodeOn, padded_length, hfirst, hsecond, hlast, hbefore, ok_bind, huna, ← hsize]

end

/-- No access out of bounds, and no more written than was allocated. The table has no entry
for the final zero, so that a run without a fault has only taken characters of the string. -/
def Base64InBounds (malloc : Nat → Bool) (b64 : List Byte) : Prop :=
  ∃ size data, base64DecodeOn malloc b64 = .ok (size, data) ∧
    ∀ out, data = some out → out.length ≤ size

/-- The test for padding already reads in front of a string that is shorter than two. -/
theorem base64DecodeOn_short (malloc : Nat → Bool) {b64 : List Byte} (h : b64.length < 2) :
    base64DecodeOn malloc b64 = .error .read := by
  rcases b64 with _ | ⟨a, _ | ⟨b, q⟩⟩
  · rfl
  · rfl
  · simp only [List.length_cons] at h
    omega

/-- The last byte of a group takes a character where a shorter string has its final zero. -/
theorem decode2_whole {size : Nat} {p out r : List Byte}
    (h : decode2 size (p ++ [0]) out = .ok r) : 4 ≤ p.length := by
  obtain ⟨a, -, h⟩ := bind_eq_ok.mp h
  obtain ⟨va, -, h⟩ := bind_eq_ok.mp h
  obtain ⟨b, hb, h⟩ := bind_eq_ok.mp h
  obtain ⟨vb, hvb, -⟩ := bind_eq_ok.mp h
  by_contra hp
  rw [load] at hb
  split at hb
  · next c hc =>
    cases hb
    obtain ⟨hlen, hc⟩ := List.getElem?_eq_some_iff.mp hc
    rw [List.length_append, List.length_singleton] at hlen
    rw [List.getElem_append_right (by omega), List.getElem_singleton] at hc
    subst hc
    have hzero : dt 0 = .error .table := rfl
    rw [hzero] at hvb
    cases hvb
  · cases hb

theorem decodeLoop_whole {size count : Nat} {p out : List Byte} {r : List Byte × List Byte}
    (hcount : count ≠ 0) (h : decodeLoop size count (p ++ [0]) out = .ok r) : 4 ≤ p.length := by
  obtain ⟨count, rfl⟩ := Nat.exists_eq_succ_of_ne_zero hcount
  obtain ⟨out0, -, h⟩ := bind_eq_ok.mp h
  obtain ⟨out1, -, h⟩ := bind_eq_ok.mp h
  obtain ⟨out2, hlast, -⟩ := bind_eq_ok.mp h
  exact decode2_whole hlast

section

variable {body : List Byte} (hbody : ∀ ch ∈ body, Alphabet ch) (k : Nat) (malloc : Nat → Bool)
include hbody

/-- From four characters on every group is there. -/
theorem base64InBounds_whole (hwhole : 4 ≤ body.length + k) :
    Base64InBounds malloc (padded body k) := by
  have hlength := padded_length body k
  have hcoded := padded_coded hbody k
  have hsize : sizeSub ((body.length + k) / 4 * 3) (min k 2) =
      (body.length + k) / 4 * 3 - min k 2 := if_pos (by omega)
  have hcount : sizeSub ((body.length + k) / 4) 1 = (body.length + k) / 4 - 1 :=
    if_pos (by omega)
  have hdecode := base64DecodeOn_padded hbody k malloc (by omega) hsize.symm
  obtain ⟨w, hw, hwlen⟩ := @decodeLoop_coded ((body.length + k) / 4 * 3 - min k 2)
    ((body.length + k) / 4 - 1) _ hcoded (by omega) [0] [] (by rw [List.length_nil]; omega)
  obtain ⟨v, hv, hvlen⟩ := @decodeTail_coded ((body.length + k) / 4 * 3 - min k 2)
    (min k 2) (by omega) ((padded body k).drop (4 * ((body.length + k) / 4 - 1)))
    (fun ch hch => hcoded ch (List.mem_of_mem_drop hch))
    (by rw [List.length_drop]; omega) [0] w (by omega)
  rw [hcount, hw, ok_bind, List.nil_append, hv, ok_bind] at hdecode
  split at hdecode
  · refine ⟨_, some (w ++ v), hdecode, ?_⟩
    intro out h
    cases h
    rw [List.length_append]
    omega
  · refine ⟨_, none, hdecode, ?_⟩
    intro out h
    cases h

/-- With two or three there is none, and `count` starts at the largest `size_t`. -/
theorem base64InBounds_less (hlen : 2 ≤ body.length + k) (hless : body.length + k < 4) :
    Base64InBounds malloc (padded body k) ↔ malloc (sizeSub 0 (min k 2)) = false := by
  have hlength := padded_length body k
  have hgroups : (body.length + k) / 4 = 0 := by omega
  have hsize : sizeSub 0 (min k 2) = sizeSub ((body.length + k) / 4 * 3) (min k 2) := by
    rw [hgroups]
  have hdecode := base64DecodeOn_padded hbody k malloc hlen hsize
  cases hm : malloc (sizeSub 0 (min k 2)) with
  | false =>
    refine iff_of_true ⟨sizeSub 0 (min k 2), none, ?_, ?_⟩ rfl
    · rw [hdecode, hm]
      rfl
    · intro out h
      cases h
  | true =>
    refine iff_of_false ?_ (by decide)
    rintro ⟨size, data, h, -⟩
    rw [hdecode, hm, if_pos rfl, hgroups] at h
    obtain ⟨ret, h, -⟩ := bind_eq_ok.mp h
    have hfour := decodeLoop_whole (by decide) h
    omega

theorem base64InBounds_iff :
    Base64InBounds malloc (padded body k) ↔
      4 ≤ body.length + k ∨ 2 ≤ body.length + k ∧ malloc (sizeSub 0 (min k 2)) = false := by
  by_cases hwhole : 4 ≤ body.length + k
  · exact iff_of_true (base64InBounds_whole hbody k malloc hwhole) (.inl hwhole)
  · by_cases hlen : 2 ≤ body.length + k
    · rw [base64InBounds_less hbody k malloc hlen (by omega)]
      simp only [hwhole, hlen, false_or, true_and]
    · refine iff_of_false ?_ (by omega)
      rintro ⟨size, data, h, -⟩
      rw [base64DecodeOn_short malloc (by rw [padded_length]; omega)] at h
      cases h

end

/-- `quote_printable_decode` stays in bounds on the complete strings, `base64_decode` on
those of four characters; short of that only a failed allocation stops it in time. -/
theorem decoders_inBounds_iff (malloc : Nat → Bool) :
    (∀ s, 0 ∉ s → (QuoteInBounds malloc s ↔ malloc (s.length + 1) = false ∨ Quoted s)) ∧
      ∀ body k, (∀ ch ∈ body, Alphabet ch) →
        (Base64InBounds malloc (padded body k) ↔
          4 ≤ body.length + k ∨
            2 ≤ body.length + k ∧ malloc (sizeSub 0 (min k 2)) = false) :=
  ⟨fun _ hzero => quoteInBounds_iff malloc hzero,
    fun _ k hbody => base64InBounds_iff hbody k malloc⟩

/-- `=41` is complete and `Q===` is long enough. -/
theorem decoders_inBounds_complete :
    QuoteInBounds (fun _ => true) [byte '=', byte '4', byte '1'] ∧
      Base64InBounds (fun _ => true) (padded [byte 'Q'] 3) := by
  obtain ⟨hquote, hbase64⟩ := decoders_inBounds_iff fun _ => true
  have hescape : Quoted [byte '=', byte '4', byte '1'] :=
    .escape [] (byte '4') (byte '1') [] (.inl rfl) (by decide) (fun _ => by decide) .nil
  have hletter : ∀ ch ∈ [byte 'Q'], Alphabet ch := by
    intro ch hch
    exact ⟨16, (by decide : (16 : Byte).toNat < 64), by rw [List.mem_singleton.mp hch]; decide⟩
  exact ⟨(hquote _ (by decide)).mpr (.inr hescape), (hbase64 _ 3 hletter).mpr (.inl (by decide))⟩

/-- A `=` at the end takes the final zero for a character; of an empty string the character
in front is read. -/
theorem decoders_outOfBounds :
    ¬ QuoteInBounds (fun _ => true) [byte '='] ∧ ¬ Base64InBounds (fun _ => true) [] := by
  constructor
  · rintro ⟨ret, h, -⟩
    have hequal : afterEqual [0] = .error .read := rfl
    have hloop : quoteLoop 2 [byte '=', 0] [] = .error .read := by
      rw [quoteLoop, if_neg (by decide), if_neg (not_not_intro rfl)]
      split
      · next e he => rw [hequal] at he; cases he; rfl
      · next q hq => rw [hequal] at hq; cases hq
      · next b q hq => rw [hequal] at hq; cases hq
    have hdecode : quotePrintableDecode (fun _ => true) [byte '='] =
        (quoteLoop 2 [byte '=', 0] [] >>= fun next =>
          put 2 next 0 >>= fun ret => pure (some (next.length, ret))) := rfl
    rw [hdecode, hloop] at h
    cases h
  · rintro ⟨size, data, h, -⟩
    cases h

end Decoders
