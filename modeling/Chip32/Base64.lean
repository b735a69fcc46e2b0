import Chip32.Runs
import Mathlib.Data.List.Basic
import Mathlib.Data.List.TakeDrop
import Mathlib.Tactic.IntervalCases

/-!
# Base64

`base64_encode` and `base64_decode` of `str.c`, with every access to the source, the
tables and the new buffer checked. A pointer into the source is what follows it, `next` is
what has been written. An allocation succeeds. A `size_t` is counted without a bound, for
`size * 4` leaves 64 bits only from `2 ^ 62` bytes on; its subtractions wrap.
-/
namespace Base64

open Runs

abbrev Byte := BitVec 8

/-- An access out of bounds: of the string, of a table, of the new buffer. -/
inductive Fault where
  | read
  | table
  | write
  deriving DecidableEq, Repr

abbrev Checked := Except Fault

/-- A difference of two `size_t`. -/
def sizeSub (a b : Nat) : Nat := if b ≤ a then a - b else a + 2 ^ 64 - b

/-- `p[i]`. -/
def load (p : List Byte) (i : Nat) : Checked Byte :=
  match p[i]? with
  | some b => .ok b
  | none => .error .read

/-- `*next++ = b` in a buffer of `size` bytes. -/
def put (size : Nat) (out : List Byte) (b : Byte) : Checked (List Byte) :=
  if out.length < size then .ok (out ++ [b]) else .error .write

def byte (ch : Char) : Byte := BitVec.ofNat 8 ch.toNat

def base64et : List Byte :=
  "ABCDEFGHIJKLMNOPQRSTUVWXYZabcdefghijklmnopqrstuvwxyz0123456789+/".toList.map byte ++ [0]

/-- The entries of `base64dt` that its declaration names. -/
def base64dtNamed : List (Char × Byte) :=
  [('A', 0), ('B', 1), ('C', 2), ('D', 3), ('E', 4), ('F', 5), ('G', 6),
    ('H', 7), ('I', 8), ('J', 9), ('K', 10), ('L', 11), ('M', 12), ('N', 13),
    ('O', 14), ('P', 15), ('Q', 16), ('R', 17), ('S', 18), ('T', 19), ('U', 20),
    ('V', 21), ('W', 22), ('X', 23), ('Y', 24), ('Z', 25),
    ('a', 26), ('b', 27), ('c', 28), ('d', 29), ('e', 30), ('f', 31), ('g', 32),
    ('h', 33), ('i', 34), ('j', 35), ('k', 36), ('l', 37), ('m', 38), ('n', 39),
    ('o', 40), ('p', 41), ('q', 42), ('r', 43), ('s', 44), ('t', 45), ('u', 46),
    ('v', 47), ('w', 48), ('x', 49), ('y', 50), ('z', 51),
    ('0', 52), ('1', 53), ('2', 54), ('3', 55), ('4', 56), ('5', 57), ('6', 58),
    ('7', 59), ('8', 60), ('9', 61),
    ('+', 62), ('/', 63)]

/-- The eighty entries, zero where the declaration names none. -/
def base64dt : List Byte :=
  (List.range 80).map fun i => (base64dtNamed.lookup (Char.ofNat (i + '+'.toNat))).getD 0

/-- `base64et[i]`. -/
def et (i : Byte) : Checked Byte :=
  match base64et[i.toNat]? with
  | some b => .ok b
  | none => .error .table

/-- `base64dt[ch - '+']`. -/
def dt (ch : Byte) : Checked Byte :=
  if ch.toNat < '+'.toNat then .error .table
  else
    match base64dt[ch.toNat - '+'.toNat]? with
    | some b => .ok b
    | none => .error .table

/-- `*next++ = base64et[i]`. -/
def putEt (size : Nat) (out : List Byte) (i : Byte) : Checked (List Byte) := do
  let b ← et i
  put size out b

/-- The loop over the whole groups: what is left of `data`, and the text. -/
def encodeLoop (size : Nat) : Nat → List Byte → List Byte → Checked (List Byte × List Byte)
  | 0, data, out => .ok (data, out)
  | ali + 1, data, out => do
    let data0 ← load data 0
    let out ← putEt size out (data0 >>> 2)
    let data1 ← load data 1
    let out ← putEt size out (((data0 &&& 0x03) <<< 4) ||| (data1 >>> 4))
    let data2 ← load data 2
    let out ← putEt size out (((data1 &&& 0x0F) <<< 2) ||| (data2 >>> 6))
    let out ← putEt size out (data2 &&& 0x3F)
    encodeLoop size ali (data.drop 3) out

/-- The `switch` of the encoder. -/
def encodeTail (size una : Nat) (data out : List Byte) : Checked (List Byte) :=
  match una with
  | 1 => do
    let data0 ← load data 0
    let out ← putEt size out (data0 >>> 2)
    let data1 ← load data 1
    let out ← putEt size out (((data0 &&& 0x03) <<< 4) ||| (data1 >>> 4))
    let out ← putEt size out ((data1 &&& 0x0F) <<< 2)
    put size out (byte '=')
  | 2 => do
    let data0 ← load data 0
    let out ← putEt size out (data0 >>> 2)
    let out ← putEt size out ((data0 &&& 0x03) <<< 4)
    let out ← put size out (byte '=')
    put size out (byte '=')
  | _ => .ok out

/-- `base64_encode`: the text and its final zero. -/
def base64Encode (src : List Byte) : Checked (List Byte) := do
  let una := src.length % 3
  let ali := (src.length - una) / 3
  let una := 3 - una
  let outsize := src.length * 4 / 3 + 4
  let (data, out) ← encodeLoop (outsize + 1) ali src []
  let out ← encodeTail (outsize + 1) una data out
  put (outsize + 1) out 0

/-- The first byte of a group. -/
def decode0 (size : Nat) (str out : List Byte) : Checked (List Byte) := do
  let a ← load str 0
  let a ← dt a
  let b ← load str 1
  let b ← dt b
  put size out ((a <<< 2) ||| (b >>> 4))

def decode1 (size : Nat) (str out : List Byte) : Checked (List Byte) := do
  let a ← load str 1
  let a ← dt a
  let b ← load str 2
  let b ← dt b
  put size out ((a <<< 4) ||| (b >>> 2))

def decode2 (size : Nat) (str out : List Byte) : Checked (List Byte) := do
  let a ← load str 2
  let a ← dt a
  let b ← load str 3
  let b ← dt b
  put size out ((a <<< 6) ||| b)

/-- The loop over the groups but the last one. -/
def decodeLoop (size : Nat) : Nat → List Byte → List Byte → Checked (List Byte × List Byte)
  | 0, str, out => .ok (str, out)
  | count + 1, str, out => do
    let out ← decode0 size str out
    let out ← decode1 size str out
    let out ← decode2 size str out
    decodeLoop size count (str.drop 4) out

/-- The `switch` of the decoder. -/
def decodeTail (size una : Nat) (str out : List Byte) : Checked (List Byte) :=
  match una with
  | 0 => do
    let out ← decode0 size str out
    let out ← decode1 size str out
    decode2 size str out
  | 1 => do
    let out ← decode0 size str out
    decode1 size str out
  | 2 => decode0 size str out
  | _ => .ok out

/-- `base64_decode` of the string `b64`: `*size`, which is also what is allocated, and the
bytes written. -/
def base64Decode (b64 : List Byte) : Checked (Nat × List Byte) := do
  let str := b64 ++ [0]
  let len := b64.length
  let last ← load str (sizeSub len 1)
  let before ← load str (sizeSub len 2)
  let una := (if last = byte '=' then 1 else 0) + (if before = byte '=' then 1 else 0)
  let countali := sizeSub (len / 4 * 3) una
  let count := sizeSub (len / 4) 1
  let (str, out) ← decodeLoop countali count str []
  let out ← decodeTail countali una str out
  pure (countali, out)

/-- The character of six bits. -/
def sextet (i : Byte) : Byte := base64et.getD i.toNat 0

/-- Every sextet has a character, not the padding and not the final zero, and the decoder's
table takes it back. -/
theorem tables (n : Fin 64) :
    base64et[n.val]? = some (sextet (BitVec.ofNat 8 n.val)) ∧
      sextet (BitVec.ofNat 8 n.val) ≠ byte '=' ∧ sextet (BitVec.ofNat 8 n.val) ≠ 0 ∧
      dt (sextet (BitVec.ofNat 8 n.val)) = .ok (BitVec.ofNat 8 n.val) := by
  revert n
  decide +kernel

/-- A byte of six bits. -/
def Six (i : Byte) : Prop := i.toNat < 64

theorem Six.tables {i : Byte} (h : Six i) :
    base64et[i.toNat]? = some (sextet i) ∧ sextet i ≠ byte '=' ∧ sextet i ≠ 0 ∧
      dt (sextet i) = .ok i := by
  have hi : BitVec.ofNat 8 i.toNat = i := by simp
  have htables := Base64.tables ⟨i.toNat, h⟩
  simpa only [hi] using htables

theorem Six.dt_sextet {i : Byte} (h : Six i) : dt (sextet i) = .ok i := h.tables.2.2.2

theorem Six.of_bits {i : Byte} (h6 : i.getLsbD 6 = false) (h7 : i.getLsbD 7 = false) : Six i := by
  refine Nat.lt_pow_two_of_testBit (n := 6) _ fun j hj => ?_
  rcases (by omega : j = 6 ∨ j = 7 ∨ 8 ≤ j) with rfl | rfl | hj
  · exact h6
  · exact h7
  · exact BitVec.getLsbD_of_ge i j hj

def six0 (a : Byte) : Byte := a >>> 2

def six1 (a b : Byte) : Byte := ((a &&& 0x03) <<< 4) ||| (b >>> 4)

def six2 (b c : Byte) : Byte := ((b &&& 0x0F) <<< 2) ||| (c >>> 6)

def six3 (c : Byte) : Byte := c &&& 0x3F

theorem six0_six (a : Byte) : Six (six0 a) := .of_bits (by simp [six0]) (by simp [six0])

theorem six1_six (a b : Byte) : Six (six1 a b) := .of_bits (by simp [six1]) (by simp [six1])

theorem six2_six (b c : Byte) : Six (six2 b c) := .of_bits (by simp [six2]) (by simp [six2])

theorem six3_six (c : Byte) : Six (six3 c) := .of_bits (by simp [six3]) (by simp [six3])

theorem join0 (a b : Byte) : (six0 a <<< 2) ||| (six1 a b >>> 4) = a := by
  refine BitVec.eq_of_getLsbD_eq fun i hi => ?_
  interval_cases i <;> simp [six0, six1]

theorem join1 (a b c : Byte) : (six1 a b <<< 4) ||| (six2 b c >>> 2) = b := by
  refine BitVec.eq_of_getLsbD_eq fun i hi => ?_
  interval_cases i <;> simp [six1, six2]

theorem join2 (b c : Byte) : (six2 b c <<< 6) ||| six3 c = c := by
  refine BitVec.eq_of_getLsbD_eq fun i hi => ?_
  interval_cases i <;> simp [six2, six3]

/-- Three bytes. -/
structure Group where
  a : Byte
  b : Byte
  c : Byte
  deriving DecidableEq, Repr

def Group.bytes (g : Group) : List Byte := [g.a, g.b, g.c]

def Group.text (g : Group) : List Byte :=
  [sextet (six0 g.a), sextet (six1 g.a g.b), sextet (six2 g.b g.c), sextet (six3 g.c)]

/-- The text of one to three bytes at the end. -/
def tailText : List Byte → List Byte
  | [a] => [sextet (six0 a), sextet (six1 a 0), byte '=', byte '=']
  | [a, b] => [sextet (six0 a), sextet (six1 a b), sextet (six2 b 0), byte '=']
  | [a, b, c] => Group.text ⟨a, b, c⟩
  | _ => []

theorem last_cases {last : List Byte} (hne : last ≠ []) (hlen : last.length ≤ 3) :
    (∃ a, last = [a]) ∨ (∃ a b, last = [a, b]) ∨ (∃ a b c, last = [a, b, c]) := by
  rcases last with _ | ⟨a, _ | ⟨b, _ | ⟨c, _ | ⟨d, last⟩⟩⟩⟩
  · exact absurd rfl hne
  · exact .inl ⟨a, rfl⟩
  · exact .inr (.inl ⟨a, b, rfl⟩)
  · exact .inr (.inr ⟨a, b, c, rfl⟩)
  · simp only [List.length_cons] at hlen
    omega

theorem tailText_length {last : List Byte} (hne : last ≠ []) (hlen : last.length ≤ 3) :
    (tailText last).length = 4 := by
  rcases last_cases hne hlen with ⟨a, rfl⟩ | ⟨a, b, rfl⟩ | ⟨a, b, c, rfl⟩
  · rfl
  · rfl
  · rfl

theorem length_bytes (gs : List Group) : (gs.flatMap Group.bytes).length = 3 * gs.length := by
  induction gs with
  | nil => rfl
  | cons g gs ih =>
    rw [List.flatMap_cons, List.length_append, ih, List.length_cons]
    simp [Group.bytes]
    omega

theorem length_text (gs : List Group) : (gs.flatMap Group.text).length = 4 * gs.length := by
  induction gs with
  | nil => rfl
  | cons g gs ih =>
    rw [List.flatMap_cons, List.length_append, ih, List.length_cons]
    simp [Group.text]
    omega

/-- Any string of bytes is whole groups and up to two bytes more. -/
theorem exists_groups : ∀ src : List Byte, ∃ (gs : List Group) (rest : List Byte),
    src = gs.flatMap Group.bytes ++ rest ∧ rest.length < 3
  | [] => ⟨[], [], rfl, by simp⟩
  | [a] => ⟨[], [a], rfl, by simp⟩
  | [a, b] => ⟨[], [a, b], rfl, by simp⟩
  | a :: b :: c :: src => by
    obtain ⟨gs, rest, hsrc, hrest⟩ := exists_groups src
    exact ⟨⟨a, b, c⟩ :: gs, rest, by simp [hsrc, Group.bytes], hrest⟩

/-- One that is not empty ends in one to three bytes behind whole groups. -/
theorem exists_last {src : List Byte} (hsrc : src ≠ []) :
    ∃ (gs : List Group) (last : List Byte),
      src = gs.flatMap Group.bytes ++ last ∧ last ≠ [] ∧ last.length ≤ 3 := by
  obtain ⟨gs, rest, rfl, hrest⟩ := exists_groups src
  by_cases hnil : rest = []
  · subst hnil
    rcases List.eq_nil_or_concat gs with rfl | ⟨gs, g, rfl⟩
    · exact absurd rfl hsrc
    · exact ⟨gs, g.bytes, by simp, by simp [Group.bytes], by simp [Group.bytes]⟩
  · exact ⟨gs, rest, rfl, hnil, by omega⟩

theorem put_ok {size : Nat} {out : List Byte} (h : out.length < size) (b : Byte) :
    put size out b = .ok (out ++ [b]) := if_pos h

theorem putEt_ok {size : Nat} {out : List Byte} {i : Byte} (hi : Six i) (h : out.length < size) :
    putEt size out i = .ok (out ++ [sextet i]) := by
  rw [putEt, et, hi.tables.1, ok_bind, put_ok h]

section

variable {size : Nat} {out : List Byte} (h : out.length < size) (a b c : Byte)
include h

theorem put_six0 : putEt size out (a >>> 2) = .ok (out ++ [sextet (six0 a)]) :=
  putEt_ok (six0_six a) h

theorem put_six1 : putEt size out (((a &&& 0x03) <<< 4) ||| (b >>> 4)) =
    .ok (out ++ [sextet (six1 a b)]) := putEt_ok (six1_six a b) h

theorem put_six2 : putEt size out (((b &&& 0x0F) <<< 2) ||| (c >>> 6)) =
    .ok (out ++ [sextet (six2 b c)]) := putEt_ok (six2_six b c) h

theorem put_six3 : putEt size out (c &&& 0x3F) = .ok (out ++ [sextet (six3 c)]) :=
  putEt_ok (six3_six c) h

/-- The last sextet of one byte, as if a zero followed. -/
theorem put_six1_zero : putEt size out ((a &&& 0x03) <<< 4) = .ok (out ++ [sextet (six1 a 0)]) := by
  simpa using put_six1 h a 0

theorem put_six2_zero : putEt size out ((b &&& 0x0F) <<< 2) = .ok (out ++ [sextet (six2 b 0)]) := by
  simpa using put_six2 h b 0

end

theorem encodeLoop_group (size ali : Nat) (g : Group) (data : List Byte) {out : List Byte}
    (h : out.length + 4 ≤ size) :
    encodeLoop size (ali + 1) (g.bytes ++ data) out =
      encodeLoop size ali data (out ++ g.text) := by
  have hload0 : load (g.bytes ++ data) 0 = .ok g.a := rfl
  have hload1 : load (g.bytes ++ data) 1 = .ok g.b := rfl
  have hload2 : load (g.bytes ++ data) 2 = .ok g.c := rfl
  rw [encodeLoop, hload0, ok_bind, put_six0 (by omega), ok_bind, hload1, ok_bind,
    put_six1 (by simp; omega), ok_bind, hload2, ok_bind, put_six2 (by simp; omega), ok_bind,
    put_six3 (by simp; omega), ok_bind]
  simp [Group.bytes, Group.text]

theorem encodeLoop_groups (size : Nat) (gs : List Group) (data : List Byte) {out : List Byte}
    (h : out.length + 4 * gs.length ≤ size) :
    encodeLoop size gs.length (gs.flatMap Group.bytes ++ data) out =
      .ok (data, out ++ gs.flatMap Group.text) := by
  induction gs generalizing out with
  | nil => simp [encodeLoop]
  | cons g gs ih =>
    rw [List.length_cons] at h
    rw [List.length_cons, List.flatMap_cons, List.append_assoc,
      encodeLoop_group size gs.length g _ (by omega), ih (by simp [Group.text]; omega),
      List.flatMap_cons, List.append_assoc]

/-- The text of what the loop leaves. -/
theorem encodeTail_text {size : Nat} {rest : List Byte} (hrest : rest.length < 3)
    {out : List Byte} (h : out.length + 4 ≤ size) :
    encodeTail size (3 - rest.length) rest out = .ok (out ++ tailText rest) := by
  rcases rest with _ | ⟨a, _ | ⟨b, _ | ⟨c, rest⟩⟩⟩
  · simp [encodeTail, tailText]
  · have hload : load [a] 0 = .ok a := rfl
    have huna : 3 - [a].length = 2 := rfl
    rw [huna, encodeTail, hload, ok_bind, put_six0 (by omega), ok_bind,
      put_six1_zero (by simp; omega), ok_bind, put_ok (by simp; omega), ok_bind,
      put_ok (by simp; omega)]
    simp [tailText]
  · have hload0 : load [a, b] 0 = .ok a := rfl
    have hload1 : load [a, b] 1 = .ok b := rfl
    have huna : 3 - [a, b].length = 1 := rfl
    rw [huna, encodeTail, hload0, ok_bind, put_six0 (by omega), ok_bind, hload1, ok_bind,
      put_six1 (by simp; omega), ok_bind, put_six2_zero (by simp; omega), ok_bind,
      put_ok (by simp; omega)]
    simp [tailText]
  · simp only [List.length_cons] at hrest
    omega

/-- The text `base64_encode` makes, without its final zero. -/
def text (gs : List Group) (rest : List Byte) : List Byte := gs.flatMap Group.text ++ tailText rest

theorem base64Encode_text (gs : List Group) {rest : List Byte} (hrest : rest.length < 3) :
    base64Encode (gs.flatMap Group.bytes ++ rest) = .ok (text gs rest ++ [0]) := by
  have hlen : (gs.flatMap Group.bytes ++ rest).length = 3 * gs.length + rest.length := by
    rw [List.length_append, length_bytes]
  have huna : (3 * gs.length + rest.length) % 3 = rest.length := by omega
  have hali : (3 * gs.length + rest.length - rest.length) / 3 = gs.length := by omega
  have htext := length_text gs
  have htail : (tailText rest).length ≤ 4 := by
    by_cases hnil : rest = []
    · simp [hnil, tailText]
    · exact Nat.le_of_eq (tailText_length hnil (by omega))
  simp only [base64Encode, hlen, huna, hali]
  rw [encodeLoop_groups _ gs rest (by rw [List.length_nil]; omega)]
  simp only [ok_bind, List.nil_append]
  rw [encodeTail_text hrest (by omega), ok_bind, put_ok (by rw [List.length_append]; omega), text]

/-- The same for an end of one to three bytes. -/
theorem base64Encode_last (gs : List Group) {last : List Byte} (hne : last ≠ [])
    (hlen : last.length ≤ 3) :
    base64Encode (gs.flatMap Group.bytes ++ last) = .ok (text gs last ++ [0]) := by
  rcases last_cases hne hlen with ⟨a, rfl⟩ | ⟨a, b, rfl⟩ | ⟨a, b, c, rfl⟩
  · exact base64Encode_text gs (by simp)
  · exact base64Encode_text gs (by simp)
  · have hgroups := @base64Encode_text (gs ++ [⟨a, b, c⟩]) [] (by simp)
    simpa [text, tailText, Group.bytes] using hgroups

theorem mem_group_text {g : Group} {ch : Byte} (h : ch ∈ g.text) :
    ∃ i, Six i ∧ ch = sextet i := by
  simp only [Group.text, List.mem_cons, List.not_mem_nil, or_false] at h
  rcases h with h | h | h | h
  · exact ⟨_, six0_six _, h⟩
  · exact ⟨_, six1_six _ _, h⟩
  · exact ⟨_, six2_six _ _, h⟩
  · exact ⟨_, six3_six _, h⟩

theorem mem_tailText {last : List Byte} {ch : Byte} (h : ch ∈ tailText last) :
    ch = byte '=' ∨ ∃ i, Six i ∧ ch = sextet i := by
  rcases last with _ | ⟨a, _ | ⟨b, _ | ⟨c, _ | ⟨d, last⟩⟩⟩⟩
  · cases h
  · simp only [tailText, List.mem_cons, List.not_mem_nil, or_false, or_self] at h
    rcases h with h | h | h
    · exact .inr ⟨_, six0_six _, h⟩
    · exact .inr ⟨_, six1_six _ _, h⟩
    · exact .inl h
  · simp only [tailText, List.mem_cons, List.not_mem_nil, or_false] at h
    rcases h with h | h | h | h
    · exact .inr ⟨_, six0_six _, h⟩
    · exact .inr ⟨_, six1_six _ _, h⟩
    · exact .inr ⟨_, six2_six _ _, h⟩
    · exact .inl h
  · exact .inr (mem_group_text h)
  · cases h

/-- No character of a text ends the string. -/
theorem zero_notMem_text (gs : List Group) (last : List Byte) : 0 ∉ text gs last := by
  have hsix : ¬ ∃ i, Six i ∧ 0 = sextet i := fun ⟨_, hi, h⟩ => hi.tables.2.2.1 h.symm
  rw [text, List.mem_append, List.mem_flatMap]
  rintro (⟨g, _, h⟩ | h)
  · exact hsix (mem_group_text h)
  · exact (mem_tailText h).elim (by decide) hsix

section

variable {size : Nat} {out : List Byte} (h : out.length < size) {a b x y : Byte}
  (ha : dt a = .ok x) (hb : dt b = .ok y)
include h ha hb

theorem decode0_dt (p : List Byte) :
    decode0 size (a :: b :: p) out = .ok (out ++ [(x <<< 2) ||| (y >>> 4)]) := by
  have hload0 : load (a :: b :: p) 0 = .ok a := rfl
  have hload1 : load (a :: b :: p) 1 = .ok b := rfl
  rw [decode0, hload0, ok_bind, ha, ok_bind, hload1, ok_bind, hb, ok_bind, put_ok h]

theorem decode1_dt (u : Byte) (p : List Byte) :
    decode1 size (u :: a :: b :: p) out = .ok (out ++ [(x <<< 4) ||| (y >>> 2)]) := by
  have hload0 : load (u :: a :: b :: p) 1 = .ok a := rfl
  have hload1 : load (u :: a :: b :: p) 2 = .ok b := rfl
  rw [decode1, hload0, ok_bind, ha, ok_bind, hload1, ok_bind, hb, ok_bind, put_ok h]

theorem decode2_dt (u v : Byte) (p : List Byte) :
    decode2 size (u :: v :: a :: b :: p) out = .ok (out ++ [(x <<< 6) ||| y]) := by
  have hload0 : load (u :: v :: a :: b :: p) 2 = .ok a := rfl
  have hload1 : load (u :: v :: a :: b :: p) 3 = .ok b := rfl
  rw [decode2, hload0, ok_bind, ha, ok_bind, hload1, ok_bind, hb, ok_bind, put_ok h]

end

/-- The three bytes of a group come back from its text. -/
theorem decode_group (size : Nat) (g : Group) (str : List Byte) {out : List Byte}
    (h : out.length + 3 ≤ size) :
    decode0 size (g.text ++ str) out = .ok (out ++ [g.a]) ∧
      decode1 size (g.text ++ str) (out ++ [g.a]) = .ok (out ++ [g.a, g.b]) ∧
      decode2 size (g.text ++ str) (out ++ [g.a, g.b]) = .ok (out ++ g.bytes) := by
  refine ⟨?_, ?_, ?_⟩
  · rw [Group.text, List.cons_append, List.cons_append,
      decode0_dt (by omega) (six0_six g.a).dt_sextet (six1_six g.a g.b).dt_sextet, join0]
  · rw [Group.text, List.cons_append, List.cons_append, List.cons_append,
      decode1_dt (by simp; omega) (six1_six g.a g.b).dt_sextet (six2_six g.b g.c).dt_sextet, join1]
    simp
  · rw [Group.text, List.cons_append, List.cons_append, List.cons_append, List.cons_append,
      decode2_dt (by simp; omega) (six2_six g.b g.c).dt_sextet (six3_six g.c).dt_sextet, join2]
    simp [Group.bytes]

theorem decodeLoop_groups (size : Nat) (gs : List Group) (str : List Byte) {out : List Byte}
    (h : out.length + 3 * gs.length ≤ size) :
    decodeLoop size gs.length (gs.flatMap Group.text ++ str) out =
      .ok (str, out ++ gs.flatMap Group.bytes) := by
  induction gs generalizing out with
  | nil => simp [decodeLoop]
  | cons g gs ih =>
    rw [List.length_cons] at h
    obtain ⟨h0, h1, h2⟩ := @decode_group size g (gs.flatMap Group.text ++ str) out (by omega)
    have hdrop : (g.text ++ (gs.flatMap Group.text ++ str)).drop 4 =
        gs.flatMap Group.text ++ str := rfl
    rw [List.length_cons, List.flatMap_cons, List.append_assoc, decodeLoop, h0, ok_bind, h1,
      ok_bind, h2, ok_bind, hdrop, ih (by simp [Group.bytes]; omega), List.flatMap_cons,
      List.append_assoc]

theorem decodeTail_last {size : Nat} {last : List Byte} (hne : last ≠ [])
    (hlen : last.length ≤ 3) {out : List Byte} (h : out.length + last.length ≤ size)
    (str : List Byte) :
    decodeTail size (3 - last.length) (tailText last ++ str) out = .ok (out ++ last) := by
  rcases last_cases hne hlen with ⟨a, rfl⟩ | ⟨a, b, rfl⟩ | ⟨a, b, c, rfl⟩
  · have huna : 3 - [a].length = 2 := rfl
    rw [huna, decodeTail, tailText, List.cons_append, List.cons_append,
      decode0_dt h (six0_six a).dt_sextet (six1_six a 0).dt_sextet, join0]
  · have huna : 3 - [a, b].length = 1 := rfl
    simp only [List.length_cons, List.length_nil] at h
    rw [huna, decodeTail, tailText, List.cons_append, List.cons_append, List.cons_append,
      decode0_dt (by omega) (six0_six a).dt_sextet (six1_six a b).dt_sextet, ok_bind, join0,
      decode1_dt (by simp; omega) (six1_six a b).dt_sextet (six2_six b 0).dt_sextet, join1]
    simp
  · have huna : 3 - [a, b, c].length = 0 := rfl
    obtain ⟨h0, h1, h2⟩ := decode_group size ⟨a, b, c⟩ str h
    rw [huna, decodeTail, tailText, h0, ok_bind, h1, ok_bind, h2]
    rfl

theorem text_length (gs : List Group) {last : List Byte} (hne : last ≠ [])
    (hlen : last.length ≤ 3) : (text gs last).length = 4 * (gs.length + 1) := by
  rw [text, List.length_append, length_text, tailText_length hne hlen]
  omega

/-- What a load finds behind the first characters. -/
theorem load_behind (p q : List Byte) (i : Nat) : load (p ++ q) (p.length + i) = load q i := by
  rw [load, List.getElem?_append_right (Nat.le_add_right ..), Nat.add_sub_cancel_left]
  rfl

/-- The last two characters tell how many bytes the last group lacks. -/
theorem padding {last : List Byte} (hne : last ≠ []) (hlen : last.length ≤ 3) (str : List Byte) :
    ∃ before final, load (tailText last ++ str) 2 = .ok before ∧
      load (tailText last ++ str) 3 = .ok final ∧
      ((if final = byte '=' then 1 else 0) + (if before = byte '=' then 1 else 0)) =
        3 - last.length := by
  have hsix {i : Byte} (hi : Six i) : sextet i ≠ byte '=' := hi.tables.2.1
  rcases last_cases hne hlen with ⟨a, rfl⟩ | ⟨a, b, rfl⟩ | ⟨a, b, c, rfl⟩
  · exact ⟨_, _, rfl, rfl, by simp⟩
  · refine ⟨_, _, rfl, rfl, ?_⟩
    rw [if_pos rfl, if_neg (hsix (six2_six b 0))]
    rfl
  · refine ⟨_, _, rfl, rfl, ?_⟩
    rw [if_neg (hsix (six3_six c)), if_neg (hsix (six2_six b c))]
    rfl

theorem base64Decode_text (gs : List Group) {last : List Byte} (hne : last ≠ [])
    (hlen : last.length ≤ 3) :
    base64Decode (text gs last) =
      .ok (3 * gs.length + last.length, gs.flatMap Group.bytes ++ last) := by
  have htext := text_length gs hne hlen
  have hpos := List.length_pos_iff.mpr hne
  obtain ⟨before, final, hbefore, hfinal, huna⟩ := padding hne hlen [0]
  have hstr : text gs last ++ [0] = gs.flatMap Group.text ++ (tailText last ++ [0]) :=
    List.append_assoc ..
  have hload (i : Nat) : load (text gs last ++ [0]) (4 * gs.length + i) =
      load (tailText last ++ [0]) i := by
    rw [hstr, ← length_text gs, load_behind]
  have hlast : sizeSub (4 * (gs.length + 1)) 1 = 4 * gs.length + 3 := by
    rw [sizeSub, if_pos (by omega)]
    omega
  have hprev : sizeSub (4 * (gs.length + 1)) 2 = 4 * gs.length + 2 := by
    rw [sizeSub, if_pos (by omega)]
    omega
  have hcount : sizeSub (4 * (gs.length + 1) / 4) 1 = gs.length := by
    rw [sizeSub, if_pos (by omega)]
    omega
  have hali : sizeSub (4 * (gs.length + 1) / 4 * 3) (3 - last.length) =
      3 * gs.length + last.length := by
    rw [sizeSub, if_pos (by omega)]
    omega
  have hloop := @decodeLoop_groups (3 * gs.length + last.length) gs (tailText last ++ [0]) []
    (by simp)
  have hbytes := length_bytes gs
  simp only [base64Decode, htext, hlast, hprev, hload, hfinal, hbefore, ok_bind, huna, hali, hcount]
  rw [hstr, hloop, List.nil_append]
  simp only [ok_bind]
  rw [decodeTail_last hne hlen (by omega), ok_bind, pure_ok]

/-- The text of any string of bytes is decoded to that string. -/
theorem base64_roundTrip (b : List Byte) (hb : b ≠ []) :
    ∃ s, base64Encode b = .ok (s ++ [0]) ∧ 0 ∉ s ∧ s.length = 4 * ((b.length + 2) / 3) ∧
      base64Decode s = .ok (b.length, b) := by
  obtain ⟨gs, last, rfl, hne, hlen⟩ := exists_last hb
  have hpos := List.length_pos_iff.mpr hne
  have hsize : (gs.flatMap Group.bytes ++ last).length = 3 * gs.length + last.length := by
    rw [List.length_append, length_bytes]
  refine ⟨text gs last, base64Encode_last gs hne hlen, zero_notMem_text gs last, ?_, ?_⟩
  · rw [text_length gs hne hlen, hsize]
    omega
  · rw [base64Decode_text gs hne hlen, hsize]

/-- Of `Hello`. -/
theorem base64_roundTrip_hello :
    ∃ s, base64Encode [0x48, 0x65, 0x6C, 0x6C, 0x6F] = .ok (s ++ [0]) ∧ 0 ∉ s ∧
      s.length = 8 ∧ base64Decode s = .ok (5, [0x48, 0x65, 0x6C, 0x6C, 0x6F]) :=
  base64_roundTrip [0x48, 0x65, 0x6C, 0x6C, 0x6F] (by decide)

end Base64
