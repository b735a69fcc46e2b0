import Chip32.Asm
import Chip32.Paths
import Chip32.ObjectFile

/-!
# Loading the source

`load_code` reads a file into a block that it enlarges by `CHUNK` bytes. How much a call of
`fread` returns is up to the host: a file is the list of the pieces it comes in, and an
empty piece is what `fread` returns at its end or on an error. The text that is loaded
depends on the bytes of the pieces only.
-/
namespace Main

open Runs Asm ObjectFile Paths

/-- `CHUNK`. -/
def chunk : Nat := 4096

/-- What `load_code` gets from outside. Where a call succeeds, `malloc` and `realloc` give
the bytes found in the new memory; where it does not, the text of `errno`. -/
structure Loading where
  fileExists : Text → Bool
  fopen : Text → Except Text (List (List Byte))
  malloc : Nat → Except Text (Nat → Byte)
  realloc : Nat → Except Text (Nat → Byte)

/-- `die`; `rest` is what its format puts behind the text of `errno`. -/
def dieError {α : Type} (errno rest : Text) : Except Paths.Stop α :=
  .error (.die ("error:".toList ++ errno ++ rest))

/-- The loop of `find_file` over the include directories. -/
def findIn (fileExists : Text → Bool) (fname : Text) : List Text → Except Paths.Stop Text
  | [] => .error (.die ("file ".toList ++ fname ++ " not exists".toList))
  | dir :: dinc =>
    let ret := dir ++ '/' :: fname
    if fileExists ret then .ok ret else findIn fileExists fname dinc

/-- `find_file`. -/
def findFile (fileExists : Text → Bool) (dinc : List Text) (fname : Text) :
    Except Paths.Stop Text :=
  if fileExists fname then .ok fname else findIn fileExists fname dinc

/-- `fread` of up to `room` bytes: what it reads, and what is left of the file. -/
def fread (room : Nat) : List (List Byte) → List Byte × List (List Byte)
  | [] => ([], [])
  | piece :: file =>
    (piece.take room, if piece.length ≤ room then file else piece.drop room :: file)

/-- The bytes `fread` returns before it returns none. -/
def contents (file : List (List Byte)) : List Byte := (file.takeWhile (· ≠ [])).flatten

/-- The bytes from `start` on overwritten. -/
def put (code : List Byte) (start : Nat) (bytes : List Byte) : Except Paths.Stop (List Byte) :=
  if start + bytes.length ≤ code.length then
    .ok (code.take start ++ bytes ++ code.drop (start + bytes.length))
  else .error .wild

/-- The variables of `load_code`'s loop, and the file behind what was read. -/
structure Loader where
  code : List Byte
  codeSize : Nat
  codeLen : Nat
  file : List (List Byte)

/-- `realloc` by a `CHUNK`: the bytes there were, and what is found behind them. -/
def Loader.enlarge (s : Loader) (host : Loading) : Except Paths.Stop Loader :=
  let codeSize := s.codeSize + chunk
  match host.realloc codeSize with
  | .error errno => dieError errno " on reallocate mem\n".toList
  | .ok fresh =>
    .ok { s with
      code := s.code ++ (List.range chunk).map fun i => fresh (s.codeSize + i)
      codeSize := codeSize }

/-- One turn of the loop. -/
def loadStep (host : Loading) (s : Loader) : Except Paths.Stop (Outcome Loader) :=
  -- otherwise the room is a negative number, which `size_t` has not
  if s.codeSize ≤ s.codeLen then .error .wild
  else do
    let (bytes, file) := fread (s.codeSize - s.codeLen - 1) s.file
    let code ← put s.code s.codeLen bytes
    if bytes.length = 0 then pure (.stop { s with code, file })
    else
      let s := { s with code, file, codeLen := s.codeLen + bytes.length }
      if s.codeSize - 1 ≤ s.codeLen then do
        let s ← s.enlarge host
        pure (.next s)
      else pure (.next s)

/-- What is left of a file, which every turn shortens. -/
def remaining : List (List Byte) → Nat
  | [] => 0
  | piece :: file => piece.length + 1 + remaining file

/-- `load_code`: the block it returns. -/
def loadCode (host : Loading) (dinc : List Text) (src : Text) : Except Paths.Stop (List Byte) := do
  let fname ← findFile host.fileExists dinc src
  match host.fopen fname with
  | .error errno => dieError errno (" on open file ".toList ++ fname)
  | .ok file =>
    match host.malloc chunk with
    | .error errno => dieError errno " on allocate mem\n".toList
    | .ok fresh => do
      let s ← loop (loadStep host) (fun s => remaining s.file)
        ⟨(List.range chunk).map fresh, chunk, 0, file⟩
      put s.code s.codeLen [0]

/-- The character of a byte. -/
def charOf (b : Byte) : Char := Char.ofNat b.toNat

/-- The string at the start of a block. -/
def stringAt (code : List Byte) : Text := (code.takeWhile (· ≠ 0)).map charOf

variable {all bytes : List Byte} {s : Loader}

theorem fread_length (room : Nat) (file : List (List Byte)) : (fread room file).1.length ≤ room := by
  cases file with
  | nil => exact Nat.zero_le room
  | cons piece file => exact List.length_take_le room piece

/-- With room for a byte `fread` returns none only where the contents end. -/
theorem contents_fread {room : Nat} (hroom : 0 < room) (file : List (List Byte)) :
    contents file = (fread room file).1 ++
      if (fread room file).1 = [] then [] else contents (fread room file).2 := by
  cases file with
  | nil => rfl
  | cons piece file =>
    cases piece with
    | nil => simp [contents, fread]
    | cons b piece =>
      have hne : (b :: piece).take room ≠ [] := by
        rw [Ne, List.take_eq_nil_iff]
        simpa using Nat.ne_of_gt hroom
      by_cases hfits : (b :: piece).length ≤ room
      · rw [fread, if_neg hne, if_pos hfits, List.take_of_length_le hfits]
        simp [contents]
      · have hrest : (b :: piece).drop room ≠ [] := by
          rw [Ne, List.drop_eq_nil_iff]
          exact hfits
        rw [fread, if_neg hne, if_neg hfits, contents, contents,
          List.takeWhile_cons_of_pos (by simp), List.takeWhile_cons_of_pos (by simpa using hrest),
          List.flatten_cons, List.flatten_cons, ← List.append_assoc, List.take_append_drop]

theorem fread_shortens {room : Nat} {file : List (List Byte)} (hne : (fread room file).1 ≠ []) :
    remaining (fread room file).2 < remaining file := by
  cases file with
  | nil => exact absurd rfl hne
  | cons piece file =>
    have hroom : 0 < room := Nat.pos_of_ne_zero fun h => hne (by simp [fread, h])
    simp only [fread]
    split
    · simp [remaining]
    · simp [remaining]
      omega

theorem put_ok {code bytes : List Byte} {start : Nat} (h : start + bytes.length ≤ code.length) :
    put code start bytes = .ok (code.take start ++ bytes ++ code.drop (start + bytes.length)) :=
  if_pos h

/-- At the head of the loop: the block has the size it is said to have, which depends on
what was read alone, and what was read is in it, in front of what is still to come. -/
structure Filling (all : List Byte) (s : Loader) : Prop where
  size : s.code.length = s.codeSize
  chunks : s.codeSize = chunk * ((s.codeLen + 1) / chunk + 1)
  bytes : s.code.take s.codeLen ++ contents s.file = all

theorem Filling.room (hs : Filling all s) : s.codeLen + 1 < s.codeSize := by
  have hlt := Nat.lt_mul_div_succ (s.codeLen + 1) (show 0 < chunk by decide)
  rwa [← hs.chunks] at hlt

/-- The block with what `fread` read. -/
def Loader.written (s : Loader) (bytes : List Byte) : List Byte :=
  s.code.take s.codeLen ++ bytes ++ s.code.drop (s.codeLen + bytes.length)

/-- What `fread` reads fits into the block, with a byte to spare. -/
theorem Filling.put (hs : Filling all s) (hlen : bytes.length ≤ s.codeSize - s.codeLen - 1) :
    put s.code s.codeLen bytes = .ok (s.written bytes) := by
  have hroom := hs.room
  have hsize := hs.size
  exact put_ok (by omega)

theorem Filling.length_written (hs : Filling all s)
    (hlen : bytes.length ≤ s.codeSize - s.codeLen - 1) :
    (s.written bytes).length = s.codeSize := by
  have hroom := hs.room
  have hsize := hs.size
  simp only [Loader.written, List.length_append, List.length_take, List.length_drop]
  omega

theorem Filling.take_written (hs : Filling all s) (bytes : List Byte) :
    (s.written bytes).take (s.codeLen + bytes.length) = s.code.take s.codeLen ++ bytes := by
  have hroom := hs.room
  have hsize := hs.size
  apply List.take_left'
  simp only [List.length_append, List.length_take]
  omega

/-- The block that is large enough for what was read and the zero behind it. -/
theorem chunks_same {size len n : Nat} (hsize : size = chunk * ((len + 1) / chunk + 1))
    (hlt : len + n + 1 < size) : size = chunk * ((len + n + 1) / chunk + 1) := by
  have hquot : (len + n + 1) / chunk = (len + 1) / chunk := by
    apply Nat.div_eq_of_lt_le
    · have := Nat.div_mul_le_self (len + 1) chunk
      omega
    · rw [Nat.mul_comm, ← hsize]
      exact hlt
  rw [hquot, hsize]

theorem chunks_more {size len n : Nat} (hsize : size = chunk * ((len + 1) / chunk + 1))
    (heq : len + n + 1 = size) : size + chunk = chunk * ((len + n + 1) / chunk + 1) := by
  rw [heq]
  conv_rhs => rw [hsize, Nat.mul_div_cancel_left _ (by decide), Nat.mul_add, Nat.mul_one, ← hsize]

/-- `realloc` failed. -/
def OutOfMemory (host : Loading) (e : Paths.Stop) : Prop :=
  ∃ size errno, host.realloc size = .error errno ∧
    e = .die ("error:".toList ++ errno ++ " on reallocate mem\n".toList)

/-- A turn of the loop. -/
theorem loadStep_cases (host : Loading) (hs : Filling all s) :
    (∃ t, loadStep host s = .ok (.next t) ∧ Filling all t) ∨
    (∃ t, loadStep host s = .ok (.stop t) ∧ Filling all { t with file := [] }) ∨
    ∃ e, loadStep host s = .error e ∧ OutOfMemory host e := by
  have hroom := hs.room
  obtain ⟨bytes, file, hread⟩ : ∃ bytes file,
      fread (s.codeSize - s.codeLen - 1) s.file = (bytes, file) := ⟨_, _, rfl⟩
  have hlen : bytes.length ≤ s.codeSize - s.codeLen - 1 := by
    have := fread_length (s.codeSize - s.codeLen - 1) s.file
    rwa [hread] at this
  have hall : contents s.file = bytes ++ if bytes = [] then [] else contents file := by
    have := contents_fread (show 0 < s.codeSize - s.codeLen - 1 by omega) s.file
    rwa [hread] at this
  rw [loadStep, if_neg (by omega), hread]
  simp only [hs.put hlen, ok_bind, List.length_eq_zero_iff]
  by_cases hend : bytes = []
  · subst hend
    have hkept : s.written [] = s.code := by simp [Loader.written]
    have hbytes := hs.bytes
    rw [hall] at hbytes
    refine .inr (.inl ⟨_, if_pos rfl, ?_⟩)
    rw [hkept]
    exact ⟨hs.size, hs.chunks, hbytes⟩
  · rw [if_neg hend] at hall ⊢
    have hsize := hs.length_written hlen
    have hbytes : (s.written bytes).take (s.codeLen + bytes.length) ++ contents file = all := by
      rw [hs.take_written, List.append_assoc, ← hall, hs.bytes]
    by_cases hfull : s.codeSize - 1 ≤ s.codeLen + bytes.length
    · have hlast : s.codeLen + bytes.length + 1 = s.codeSize := by omega
      rw [if_pos hfull, Loader.enlarge]
      cases hmem : host.realloc (s.codeSize + chunk) with
      | error errno => exact .inr (.inr ⟨_, rfl, _, _, hmem, rfl⟩)
      | ok fresh =>
        refine .inl ⟨_, rfl, ?_, chunks_more hs.chunks hlast, ?_⟩
        · simp [hsize]
        · have hin : s.codeLen + bytes.length ≤ (s.written bytes).length := by omega
          exact (congrArg (· ++ _) (List.take_append_of_le_length hin)).trans hbytes
    · have hlast : s.codeLen + bytes.length + 1 < s.codeSize := by omega
      rw [if_neg hfull]
      exact .inl ⟨_, rfl, hsize, chunks_same hs.chunks hlast, hbytes⟩

theorem loadStep_shortens (host : Loading) (s t : Loader)
    (h : loadStep host s = .ok (.next t)) : remaining t.file < remaining s.file := by
  obtain ⟨bytes, file, hread⟩ : ∃ bytes file,
      fread (s.codeSize - s.codeLen - 1) s.file = (bytes, file) := ⟨_, _, rfl⟩
  have hshort : bytes ≠ [] → remaining file < remaining s.file := by
    intro hne
    have := fread_shortens (show (fread (s.codeSize - s.codeLen - 1) s.file).1 ≠ [] by rwa [hread])
    rwa [hread] at this
  rw [loadStep, hread] at h
  by_cases hroom : s.codeSize ≤ s.codeLen
  · rw [if_pos hroom] at h
    cases h
  rw [if_neg hroom] at h
  obtain ⟨code, _, h⟩ := bind_eq_ok.mp h
  by_cases hend : bytes.length = 0
  · rw [if_pos hend] at h
    cases h
  rw [if_neg hend] at h
  have hfile : t.file = file := by
    by_cases hfull : s.codeSize - 1 ≤ s.codeLen + bytes.length
    · rw [if_pos hfull, Loader.enlarge] at h
      cases hmem : host.realloc (s.codeSize + chunk) with
      | error errno => simp [hmem, dieError] at h
      | ok fresh =>
        simp only [hmem, ok_bind] at h
        cases h
        rfl
    · rw [if_neg hfull] at h
      cases h
      rfl
  rw [hfile]
  exact hshort fun hnil => hend (by rw [hnil]; rfl)

/-- The loop reads the contents, or it runs out of memory. -/
theorem load_loop (host : Loading) (hs : Filling all s) :
    (∃ t, loop (loadStep host) (fun s => remaining s.file) s = .ok t ∧
      Filling all { t with file := [] }) ∨
    ∃ e, loop (loadStep host) (fun s => remaining s.file) s = .error e ∧ OutOfMemory host e :=
  loop_rule (loadStep_shortens host) (fun _ hs => loadStep_cases host hs) hs

theorem filling_new (fresh : Nat → Byte) (file : List (List Byte)) :
    Filling (contents file) ⟨(List.range chunk).map fresh, chunk, 0, file⟩ :=
  ⟨by simp, show chunk = chunk * ((0 + 1) / chunk + 1) by decide, rfl⟩

/-- The zero that ends the string. -/
theorem Filling.ended (hs : Filling all { s with file := [] }) :
    ∃ rest, Main.put s.code s.codeLen [0] = .ok (all ++ 0 :: rest) ∧
      (all ++ 0 :: rest).length = chunk * ((all.length + 1) / chunk + 1) := by
  have hroom : s.codeLen + 1 < s.codeSize := hs.room
  have hsize : s.code.length = s.codeSize := hs.size
  have hall : s.code.take s.codeLen = all := (List.append_nil _).symm.trans hs.bytes
  have hlen : all.length = s.codeLen := by
    rw [← hall, List.length_take]
    omega
  refine ⟨s.code.drop (s.codeLen + 1), ?_, ?_⟩
  · rw [put_ok (by rw [List.length_singleton]; omega), hall, List.append_assoc]
    rfl
  · rw [hlen, ← show s.codeSize = _ from hs.chunks]
    simp only [List.length_append, List.length_cons, List.length_drop]
    omega

theorem takeWhile_string (bytes rest : List Byte) :
    stringAt (bytes ++ 0 :: rest) = (bytes.takeWhile (· ≠ 0)).map charOf := by
  have hcons : (0 :: rest : List Byte).takeWhile (· ≠ 0) = [] :=
    List.takeWhile_cons_of_neg (by simp)
  rw [stringAt, List.takeWhile_append, hcons, List.append_nil]
  split
  case isTrue hall => rw [(List.takeWhile_prefix _).eq_of_length hall]
  case isFalse => rfl

theorem findFile_ne_wild (fileExists : Text → Bool) (dinc : List Text) (fname : Text) :
    findFile fileExists dinc fname ≠ .error .wild := by
  have hin : findIn fileExists fname dinc ≠ .error .wild := by
    induction dinc with
    | nil => exact fun h => by cases h
    | cons dir dinc ih =>
      rw [findIn]
      split
      · exact fun h => by cases h
      · exact ih
  rw [findFile]
  split
  · exact fun h => by cases h
  · exact hin

theorem loadCode_ne_wild (host : Loading) (dinc : List Text) (src : Text) :
    loadCode host dinc src ≠ .error .wild := by
  intro h
  rw [loadCode, bind_eq_error] at h
  rcases h with h | ⟨fname, _, h⟩
  · exact findFile_ne_wild _ _ _ h
  cases hopen : host.fopen fname with
  | error errno => simp [hopen, dieError] at h
  | ok file =>
    cases hmem : host.malloc chunk with
    | error errno => simp [hopen, hmem, dieError] at h
    | ok fresh =>
      simp only [hopen, hmem] at h
      rcases load_loop host (filling_new fresh file) with ⟨t, ht, hfilled⟩ | ⟨e, he, _, _, _, hdie⟩
      · rw [ht] at h
        obtain ⟨rest, hrest, _⟩ := hfilled.ended
        exact nomatch hrest.symm.trans h
      · rw [he, hdie] at h
        cases h

/-- The file is read whole, however it comes, into a block just large enough, with a zero
behind it; the string in the block ends where the file has its first zero. -/
theorem loadCode_contents (host : Loading) (dinc : List Text) (src fname : Text)
    (file : List (List Byte)) (hfname : findFile host.fileExists dinc src = .ok fname)
    (hfile : host.fopen fname = .ok file) (hmalloc : ∃ fresh, host.malloc chunk = .ok fresh)
    (hrealloc : ∀ size, ∃ fresh, host.realloc size = .ok fresh) :
    ∃ rest, loadCode host dinc src = .ok (contents file ++ 0 :: rest) ∧
      (contents file ++ 0 :: rest).length = chunk * (((contents file).length + 1) / chunk + 1) ∧
      stringAt (contents file ++ 0 :: rest) = ((contents file).takeWhile (· ≠ 0)).map charOf := by
  obtain ⟨fresh, hfresh⟩ := hmalloc
  rcases load_loop host (filling_new fresh file) with ⟨t, ht, hfilled⟩ | ⟨_, _, size, _, hnone, _⟩
  · obtain ⟨rest, hput, hlen⟩ := hfilled.ended
    refine ⟨rest, ?_, hlen, takeWhile_string _ _⟩
    simp only [loadCode, hfname, hfile, hfresh, ht, ok_bind, hput]
  · obtain ⟨_, hsome⟩ := hrealloc size
    cases hnone.symm.trans hsome

/-- Loading never writes outside its block, and where no call fails it loads the file whole. -/
theorem loadCode_whole (host : Loading) (dinc : List Text) (src : Text) :
    loadCode host dinc src ≠ .error .wild ∧
    ∀ fname file, findFile host.fileExists dinc src = .ok fname → host.fopen fname = .ok file →
      (∃ fresh, host.malloc chunk = .ok fresh) → (∀ size, ∃ fresh, host.realloc size = .ok fresh) →
      ∃ rest, loadCode host dinc src = .ok (contents file ++ 0 :: rest) ∧
        (contents file ++ 0 :: rest).length = chunk * (((contents file).length + 1) / chunk + 1) ∧
        stringAt (contents file ++ 0 :: rest) = ((contents file).takeWhile (· ≠ 0)).map charOf :=
  ⟨loadCode_ne_wild host dinc src, loadCode_contents host dinc src⟩

/-- `ret` behind more blanks than the first block has room for, in two pieces and with a
directory in front. -/
def loadingRet : Loading where
  fileExists name := name = ['d', '/', 'a']
  fopen _ := .ok [List.replicate 5000 32, [114, 101, 116, 10]]
  malloc _ := .ok fun _ => 7
  realloc _ := .ok fun _ => 7

theorem loadCode_whole_ret :
    let bytes : List Byte := List.replicate 5000 32 ++ [114, 101, 116, 10]
    ∃ rest, loadCode loadingRet [['d']] ['a'] = .ok (bytes ++ 0 :: rest) ∧
      (bytes ++ 0 :: rest).length = 2 * chunk ∧
      stringAt (bytes ++ 0 :: rest) = List.replicate 5000 ' ' ++ ['r', 'e', 't', '\n'] := by
  obtain ⟨rest, hload, hlength, hstring⟩ := (loadCode_whole loadingRet [['d']] ['a']).2
    ['d', '/', 'a'] [List.replicate 5000 32, [114, 101, 116, 10]] rfl rfl ⟨_, rfl⟩ fun _ => ⟨_, rfl⟩
  have hbytes : contents [List.replicate 5000 32, [114, 101, 116, 10]] =
      List.replicate 5000 32 ++ [114, 101, 116, 10] := by
    rw [contents, List.takeWhile_cons_of_pos (by rw [List.replicate_succ]; rfl)]
    rfl
  have hblanks : ∀ b ∈ List.replicate 5000 (32 : Byte), decide (b ≠ 0) = true := by
    intro b hb
    rw [List.eq_of_mem_replicate hb]
    rfl
  have hlong : (List.replicate 5000 (32 : Byte) ++ [114, 101, 116, 10]).length = 5004 := by
    rw [List.length_append, List.length_replicate]
    rfl
  rw [hbytes] at hload hlength hstring
  rw [hlong] at hlength
  rw [List.takeWhile_append_of_pos hblanks, List.map_append, List.map_replicate] at hstring
  exact ⟨rest, hload, hlength, hstring⟩

/-- `die` about the text at `prest`, of which thirty characters are shown. -/
def dieAt {α : Type} (message prest : Text) : Except Paths.Stop α :=
  .error (.die (message ++ prest.take 30))

/-- One turn of the loop of `preprocessing_code`, on `*code` and what `prest` points to. -/
def includeStep (host : Loading) (dinc : List Text) (s : Text × Text) :
    Except Paths.Stop (Outcome (Text × Text)) :=
  match s.2.dropWhile (· ≠ '#') with
  | [] => pure (.stop s)
  | prest =>
    -- the whole rest of the source is compared, not its first word
    if prest ≠ "#include".toList then dieAt "unsupported preprocess ".toList prest
    else
      let incfile := (prest.drop 8).dropWhile (· ≠ '"')
      if incfile = [] then dieAt "invalid include ".toList prest
      else
        let endf := incfile.tail.dropWhile (· ≠ '"')
        if endf = [] then dieAt "invalid include ".toList prest
        else do
          let inscode ← loadCode host dinc (incfile.tail.takeWhile (· ≠ '"'))
          let front := s.1.take (s.1.length - prest.length)
          let prest := front ++ stringAt inscode ++ endf.tail
          pure (.next (prest, prest))

/-- The first `k` turns of `preprocessing_code`. -/
def preprocessingCode (host : Loading) (dinc : List Text) (k : Nat) (code : Text) :
    Except Paths.Stop (Outcome (Text × Text)) :=
  iterate (includeStep host dinc) k (code, code)

/-- Nothing is ever included: the first `#` ends the program, whatever stands behind it. -/
theorem preprocessingCode_dies (host : Loading) (dinc : List Text) (k : Nat) (code : Text) :
    preprocessingCode host dinc (k + 1) code =
      match code.dropWhile (· ≠ '#') with
      | [] => .ok (.stop (code, code))
      | prest =>
        dieAt (if prest = "#include".toList then "invalid include ".toList
          else "unsupported preprocess ".toList) prest := by
  rw [preprocessingCode, iterate, includeStep]
  cases hprest : code.dropWhile (· ≠ '#') with
  | nil => rfl
  | cons ch prest =>
    by_cases hinclude : ch :: prest = "#include".toList
    · rw [hinclude]
      rfl
    · simp only [ne_eq, hinclude, not_false_eq_true, if_true, if_false]
      rfl

end Main
