import Chip32.Options
import Chip32.Parser
import Chip32.ErrorPrint
import Chip32.VmDump
import Chip32.VmPaging

/-!
# The program `main`

The compiler and the machine behind one command line. Two results put them together: a
command line that compiles and runs does what two do, one that compiles and one that runs
what was compiled; and what runs is the flat machine on the assembled program. A third one
says which file is ever written.
-/
namespace Main

open Runs Asm ObjectFile

/-- The files by name. -/
abbrev Disk := Text → Option (List Byte)

def writeFile (disk : Disk) (name : Text) (bytes : List Byte) : Disk :=
  fun n => if n = name then some bytes else disk n

@[simp] theorem writeFile_same (disk : Disk) (name : Text) (bytes : List Byte) :
    writeFile disk name bytes name = some bytes := if_pos rfl

/-- What `main` changes: the files, and what it has printed. -/
structure World where
  disk : Disk
  stdout : Text
  stderr : Text

/-- What `main` gets from outside and does not change: the answers of `path_resolve`'s host,
how `fread` hands out a file, the `errno` texts of files that cannot be opened, which calls
of `fwrite` are answered with 1, what a file keeps of all that was given to them (`fclose` is
not asked), and the content of fresh memory. -/
structure Env where
  paths : Paths.Host
  cuts : List Byte → List (List Byte)
  contents_cuts : ∀ bytes, contents (cuts bytes) = bytes
  noEntry : Text
  unreadable : Text → Option Text
  unwritable : Text → Option Text
  fwrite : Text → Nat → Bool
  kept : Text → List Byte → List Byte
  prefix_kept : ∀ name bytes, kept name bytes <+: bytes
  malloc : Nat → Except Text (Nat → Byte)
  realloc : Nat → Except Text (Nat → Byte)
  page : List Vm.Command
  length_page : page.length = 512
  ram : Vm.Word → Option (Nat → Vm.Word)
  un : Vm.Unspecified

/-- How `main` ends; `running` where the machine has not ended yet. -/
inductive Ending where
  | exit (status : Nat) (w : World)
  | wild
  | running (w : World)

def World.print (w : World) (text : Text) : World := { w with stdout := w.stdout ++ text }

def World.complain (w : World) (text : Text) : World := { w with stderr := w.stderr ++ text }

/-- `die`. -/
def World.die (w : World) (message : Text) : Ending := .exit 1 (w.complain (message ++ ['\n']))

def Exit.ending (w : World) : Exit → Ending
  | .exit status stderr => .exit status (w.complain stderr)
  | .wild => .wild

/-- `fopen` for reading. -/
def Env.openFile (env : Env) (disk : Disk) (name : Text) : Except Text (List Byte) :=
  match disk name with
  | none => .error env.noEntry
  | some bytes =>
    match env.unreadable name with
    | some errno => .error errno
    | none => .ok bytes

/-- The files as `load_code` sees them. -/
def Env.loading (env : Env) (disk : Disk) : Loading where
  fileExists name := (disk name).isSome
  fopen name := (env.openFile disk name).map env.cuts
  malloc := env.malloc
  realloc := env.realloc

def openError (errno name : Text) : Text :=
  "error:".toList ++ errno ++ " on open file ".toList ++ name

/-- The value of a `TK_` constant. -/
def tkNumber : Tktype → Nat
  | .literalNum => 1
  | .literalChar => 2
  | .literalStr => 3
  | .auto => 4
  | .ram => 5
  | .addr => 6
  | .ptr => 7
  | .data => 8
  | .name => 9
  | .label => 10

/-- The loop of `chip32_lex_dump`, from index `i` on. -/
def lexLines : Nat → List Lexcmd → Text
  | _, [] => []
  | i, cmd :: vcmd =>
    (Vm.padIndex i).toList ++ ['|'] ++
      (cmd.flatMap fun tk => ['<'] ++ (toString (tkNumber tk.type)).toList ++ ['|'] ++ tk.text ++ ['>']) ++
      ['\n'] ++ lexLines (i + 1) vcmd

/-- `chip32_lex_dump`. -/
def lexDump (vcmd : List Lexcmd) : Text :=
  "lex dumps:".toList ++ (toString vcmd.length).toList ++ ['\n'] ++ lexLines 0 vcmd

/-- What is in the file `out` when its commands are saved, as far as that goes. -/
def written (env : Env) (out : Text) (mc : List Vm.Command) : List Byte :=
  env.kept out (commandsSaveOn (env.fwrite out) mc).1

/-- The commands saved under the name `out`. -/
def save (env : Env) (verbose : Bool) (mc : List Vm.Command) (out : Text) (w : World) :
    Except Ending World :=
  let told := if verbose then w.complain ("save command: ".toList ++ out ++ ['\n']) else w
  match env.unwritable out with
  | some errno => .error (told.die (openError errno out))
  | none =>
    let saved := { told with disk := writeFile w.disk out (written env out mc) }
    if (commandsSaveOn (env.fwrite out) mc).2 then .ok saved
    else .error (saved.die "error: on save commands".toList)

/-- What `main` does with a source file. -/
def compile (env : Env) (o : Options) (src out : Text) (w : World) : Except Ending World :=
  match loadCode (env.loading w.disk) o.dinclude src with
  | .error stop => .error ((Exit.ofStop stop).ending w)
  | .ok block =>
    let code := stringAt block
    let w := if o.verbose then w.complain ("<CODE>".toList ++ code ++ "</CODE>\n".toList) else w
    match build code with
    | .error (.fault _) => .error .wild
    | .error (.fail c) =>
      let report := errorPrint code c
      .error (.exit 1 ((w.print report.stdout).complain report.stderr))
    | .ok c =>
      let w := if o.verbose then w.print (lexDump c.vcmd ++ (Vm.commandDump c.mc).toList) else w
      save env o.verbose c.mc out w

/-- What the machine has printed. -/
def World.ran (w : World) (chip : Vm.Chip) : World :=
  (w.print chip.stdout.toList).complain chip.stderr.toList

/-- What `main` does with its output file when it is to run it; the machine goes through at
most `k` iterations. -/
def runFile (env : Env) (k : Nat) (out : Text) (w : World) : Ending :=
  match env.openFile w.disk out with
  | .error errno => w.die (openError errno out)
  | .ok bytes =>
    match Vm.run (ObjectFile.host bytes env.ram env.un) (Vm.Chip.new env.page) k with
    | .error _ => .wild
    | .ok (.next s) => .running (w.ran s.chip)
    | .ok (.stop s) =>
      if Vm.returned s ≠ 0 then (w.ran s.chip).die "mc32 fail".toList
      else .exit 0 (w.ran s.chip)

/-- `main` behind its options. -/
def mainWith (env : Env) (k : Nat) (o : Options) (w : World) : Ending :=
  match o.out with
  | none => w.die "required output file".toList
  | some out =>
    match resolved env.paths out with
    | .error e => e.ending w
    | .ok out =>
      match o.src with
      | none => if o.run then runFile env k out w else .exit 0 w
      | some src =>
        match compile env o src out w with
        | .error ending => ending
        | .ok w => if o.run then runFile env k out w else .exit 0 w

/-- `main`. -/
def main (env : Env) (k : Nat) (argv : List Text) (w : World) : Ending :=
  match options env.paths argv .start with
  | .error e => e.ending w
  | .ok o => mainWith env k o w

/-- The files are left so, where C defines what is left. -/
def Leaves (disk : Disk) : Ending → Prop
  | .exit _ w => w.disk = disk
  | .wild => True
  | .running w => w.disk = disk

/-- An ending with status 1 that leaves the files as they are, or none that C defines. -/
def Fails (disk : Disk) : Ending → Prop
  | .exit status w => status = 1 ∧ w.disk = disk
  | .wild => True
  | .running _ => False

theorem fails_die (w : World) (message : Text) : Fails w.disk (w.die message) := ⟨rfl, rfl⟩

theorem fails_stop (w : World) (stop : Paths.Stop) :
    Fails w.disk ((Exit.ofStop stop).ending w) := by
  cases stop with
  | die message => exact ⟨rfl, rfl⟩
  | wild => exact trivial

variable {env : Env} {k : Nat} {o : Options} {src out : Text} {w : World}

theorem fails_resolved {path : Text} {e : Exit} (h : resolved env.paths path = .error e) (w : World) :
    Fails w.disk (e.ending w) := by
  rw [resolved] at h
  cases hp : Paths.pathResolve env.paths path with
  | ok p => simp [hp] at h
  | error stop =>
    rw [hp] at h
    cases h
    exact fails_stop w stop

/-- The source assembled to `c`, and the file for its commands opened. -/
structure Opened (env : Env) (o : Options) (src out : Text) (w : World) (c : Asmchip32) : Prop where
  built : ∃ block, loadCode (env.loading w.disk) o.dinclude src = .ok block ∧
    build (stringAt block) = .ok c
  writable : env.unwritable out = none

/-- And the commands saved. -/
structure Saved (env : Env) (o : Options) (src out : Text) (w : World) (c : Asmchip32)
    (w' : World) : Prop extends Opened env o src out w c where
  disk : w'.disk = writeFile w.disk out (written env out c.mc)
  quiet : o.verbose = false → w'.stdout = w.stdout ∧ w'.stderr = w.stderr

theorem save_cases (env : Env) (verbose : Bool) (mc : List Vm.Command) (out : Text) (w : World) :
    (∃ e, save env verbose mc out w = .error e ∧ Fails w.disk e) ∨
    env.unwritable out = none ∧
      ((∃ e, save env verbose mc out w = .error e ∧
        Fails (writeFile w.disk out (written env out mc)) e) ∨
      ∃ w', save env verbose mc out w = .ok w' ∧
        w'.disk = writeFile w.disk out (written env out mc) ∧
        (verbose = false → w'.stdout = w.stdout ∧ w'.stderr = w.stderr)) := by
  rw [save]
  cases env.unwritable out with
  | some errno => cases verbose <;> exact .inl ⟨_, rfl, rfl, rfl⟩
  | none =>
    refine .inr ⟨rfl, ?_⟩
    simp only
    split
    · exact .inr ⟨_, rfl, rfl, fun h => by subst h; exact ⟨rfl, rfl⟩⟩
    · exact .inl ⟨_, rfl, rfl, rfl⟩

/-- What is printed in verbose mode only. -/
theorem verbose_cases (verbose : Bool) (w told : World) (hdisk : told.disk = w.disk) :
    ∃ v : World, (if verbose then told else w) = v ∧ v.disk = w.disk ∧ (verbose = false → v = w) := by
  cases verbose with
  | false => exact ⟨w, rfl, rfl, fun _ => rfl⟩
  | true => exact ⟨told, rfl, hdisk, fun h => by cases h⟩

/-- Either nothing is written, or the commands of a source that assembles, as far as that
goes. -/
theorem compile_cases (env : Env) (o : Options) (src out : Text) (w : World) :
    (∃ e, compile env o src out w = .error e ∧ Fails w.disk e) ∨
    (∃ c e, compile env o src out w = .error e ∧ Opened env o src out w c ∧
      Fails (writeFile w.disk out (written env out c.mc)) e) ∨
    ∃ c w', compile env o src out w = .ok w' ∧ Saved env o src out w c w' := by
  rw [compile]
  cases hload : loadCode (env.loading w.disk) o.dinclude src with
  | error stop => exact .inl ⟨_, rfl, fails_stop w stop⟩
  | ok block =>
    obtain ⟨v, hv, hvdisk, hvquiet⟩ := verbose_cases o.verbose w
      (w.complain ("<CODE>".toList ++ stringAt block ++ "</CODE>\n".toList)) rfl
    simp only [hv]
    cases hbuild : build (stringAt block) with
    | error stop =>
      cases stop with
      | fault f => exact .inl ⟨_, rfl, trivial⟩
      | fail c => exact .inl ⟨_, rfl, rfl, hvdisk⟩
    | ok c =>
      obtain ⟨u, hu, hudisk, huquiet⟩ := verbose_cases o.verbose v
        (v.print (lexDump c.vcmd ++ (Vm.commandDump c.mc).toList)) rfl
      simp only [hu]
      rcases save_cases env o.verbose c.mc out u with
        ⟨e, he, hfails⟩ | ⟨hopen, ⟨e, he, hfails⟩ | ⟨w', hw', hdisk, hquiet⟩⟩
      · rw [hudisk, hvdisk] at hfails
        exact .inl ⟨e, he, hfails⟩
      · rw [hudisk, hvdisk] at hfails
        exact .inr (.inl ⟨c, e, he, ⟨⟨block, hload, hbuild⟩, hopen⟩, hfails⟩)
      · rw [hudisk, hvdisk] at hdisk
        refine .inr (.inr ⟨c, w', hw', ⟨⟨block, hload, hbuild⟩, hopen⟩, hdisk, fun hq => ?_⟩)
        rw [← hvquiet hq, ← huquiet hq]
        exact hquiet hq

/-- A beginning of the saved program is in the file, and all of it where no write fails. -/
theorem prefix_written (env : Env) (out : Text) (mc : List Vm.Command) :
    written env out mc <+: commandsSave mc ∧
      ((∀ i, env.fwrite out i = true) → (∀ bytes, env.kept out bytes = bytes) →
        written env out mc = commandsSave mc) := by
  refine ⟨(env.prefix_kept out _).trans (prefix_commandsSaveOn _ mc), fun htook hkept => ?_⟩
  rw [written, hkept, commandsSaveOn_all _ mc (commandsSaveOn_took _ mc htook)]

theorem Fails.leaves {disk : Disk} {e : Ending} (h : Fails disk e) : Leaves disk e := by
  cases e with
  | exit status w => exact h.2
  | wild => exact trivial
  | running w => exact h.elim

theorem runFile_leaves (env : Env) (k : Nat) (out : Text) (w : World) :
    Leaves w.disk (runFile env k out w) := by
  rw [runFile]
  cases env.openFile w.disk out with
  | error errno => exact (fails_die w _).leaves
  | ok bytes =>
    simp only
    cases Vm.run (ObjectFile.host bytes env.ram env.un) (Vm.Chip.new env.page) k with
    | error fault => exact trivial
    | ok o =>
      cases o with
      | next s => exact rfl
      | stop s =>
        simp only
        split <;> exact rfl

/-- The command line names `out` for its output, and its source is assembled to `c`. -/
def Compiled (env : Env) (argv : List Text) (w : World) (out : Text) (c : Asmchip32) : Prop :=
  ∃ o path src block, options env.paths argv .start = .ok o ∧ o.out = some path ∧
    Paths.pathResolve env.paths path = .ok out ∧ o.src = some src ∧
    loadCode (env.loading w.disk) o.dinclude src = .ok block ∧ build (stringAt block) = .ok c

theorem fails_bind {path : Text} {f : Text → Except Exit Options} {e : Exit}
    (h : resolved env.paths path >>= f = .error e)
    (hf : ∀ p, f p = .error e → Fails w.disk (e.ending w)) : Fails w.disk (e.ending w) := by
  rcases bind_eq_error.mp h with h | ⟨p, _, h⟩
  · exact fails_resolved h w
  · exact hf p h

theorem options_fails {argv : List Text} {e : Exit} (h : options env.paths argv o = .error e)
    (w : World) : Fails w.disk (e.ending w) := by
  fun_induction options with
  | case1 => cases h
  | case2 | case3 | case5 | case6 | case8 | case9 | case13 =>
    cases h
    exact ⟨rfl, rfl⟩
  | case4 _ _ _ _ ih => exact fails_bind h ih
  | case7 _ _ _ _ _ ih => exact fails_bind h ih
  | case10 _ _ _ _ _ _ ih => exact fails_bind h ih
  | case11 _ _ _ _ _ ih => exact ih h
  | case12 _ _ _ _ _ _ ih => exact ih h

/-- No file is written but the output, and no output before the source is assembled: in it
then is a beginning of the saved program, and all of it where no write fails. -/
theorem main_disk (env : Env) (k : Nat) (argv : List Text) (w : World) :
    Leaves w.disk (main env k argv w) ∨
    ∃ out c bytes, Compiled env argv w out c ∧ env.unwritable out = none ∧
      Leaves (writeFile w.disk out bytes) (main env k argv w) ∧ bytes <+: commandsSave c.mc ∧
      ((∀ i, env.fwrite out i = true) → (∀ bytes, env.kept out bytes = bytes) →
        bytes = commandsSave c.mc) := by
  rw [main]
  cases hopts : options env.paths argv .start with
  | error e => exact .inl (options_fails hopts w).leaves
  | ok o =>
    simp only [mainWith]
    cases hpath : o.out with
    | none => exact .inl (fails_die w _).leaves
    | some path =>
      simp only
      cases hout : resolved env.paths path with
      | error e => exact .inl (fails_resolved hout w).leaves
      | ok out =>
        cases hsrc : o.src with
        | none =>
          refine .inl ?_
          simp only
          split
          · exact runFile_leaves env k out w
          · exact rfl
        | some src =>
          simp only
          have hcompiled : ∀ {c}, Opened env o src out w c → Compiled env argv w out c := by
            rintro c ⟨⟨block, hload, hbuild⟩, _⟩
            exact ⟨o, path, src, block, hopts, hpath, resolved_ok.mp hout, hsrc, hload, hbuild⟩
          rcases compile_cases env o src out w with
            ⟨e, he, hfails⟩ | ⟨c, e, he, hopen, hfails⟩ | ⟨c, w', hw', hsaved⟩
          · rw [he]
            exact .inl hfails.leaves
          · rw [he]
            exact .inr ⟨out, c, _, hcompiled hopen, hopen.writable, hfails.leaves,
              prefix_written env out c.mc⟩
          · refine .inr ⟨out, c, _, hcompiled hsaved.toOpened, hsaved.writable, ?_,
              prefix_written env out c.mc⟩
            rw [hw', ← hsaved.disk]
            simp only
            split
            · exact runFile_leaves env k out w'
            · exact rfl

/-- One command line behind another one, when that ended with status 0. -/
def Ending.andThen (e : Ending) (next : World → Ending) : Ending :=
  match e with
  | .exit 0 w => next w
  | e => e

theorem Fails.andThen {disk : Disk} {e : Ending} (h : Fails disk e) (next : World → Ending) :
    e.andThen next = e := by
  cases e with
  | exit status w =>
    obtain ⟨rfl, _⟩ := h
    rfl
  | wild => rfl
  | running w => rfl

theorem mainWith_noSource {path : Text} (hpath : o.out = some path)
    (hout : resolved env.paths path = .ok out) (hsrc : o.src = none) (w : World) :
    mainWith env k o w = if o.run then runFile env k out w else .exit 0 w := by
  simp only [mainWith, hpath, hout, hsrc]

theorem mainWith_source {path : Text} (hpath : o.out = some path)
    (hout : resolved env.paths path = .ok out) (hsrc : o.src = some src) (w : World) :
    mainWith env k o w =
      match compile env o src out w with
      | .error ending => ending
      | .ok w => if o.run then runFile env k out w else .exit 0 w := by
  simp only [mainWith, hpath, hout, hsrc]

/-- The two halves of a run with options that ask for one. -/
theorem mainWith_separately (hrun : o.run = true) : mainWith env k o w =
    (mainWith env k { o with run := false } w).andThen
      fun w => mainWith env k { o with src := none } w := by
  obtain ⟨dinclude, src, path, verbose, run⟩ := o
  obtain rfl : run = true := hrun
  cases path with
  | none => exact ((fails_die w _).andThen _).symm
  | some path =>
    cases hout : resolved env.paths path with
    | error e =>
      simp only [mainWith, hout]
      exact ((fails_resolved hout w).andThen _).symm
    | ok out =>
      have hbehind : ∀ w, mainWith env k ⟨dinclude, none, some path, verbose, true⟩ w =
          runFile env k out w := mainWith_noSource rfl hout rfl
      cases src with
      | none =>
        have hfirst : mainWith env k ⟨dinclude, none, some path, verbose, false⟩ w = .exit 0 w :=
          mainWith_noSource rfl hout rfl w
        simp only [hfirst]
        rfl
      | some src =>
        rw [mainWith_source rfl hout rfl, mainWith_source rfl hout rfl]
        have hsame : compile env ⟨dinclude, some src, some path, verbose, false⟩ src out w =
            compile env ⟨dinclude, some src, some path, verbose, true⟩ src out w := rfl
        rw [hsame]
        rcases compile_cases env ⟨dinclude, some src, some path, verbose, true⟩ src out w with
          ⟨e, he, hfails⟩ | ⟨_, e, he, _, hfails⟩ | ⟨_, w', hw', _⟩
        · rw [he]
          exact (hfails.andThen _).symm
        · rw [he]
          exact (hfails.andThen _).symm
        · rw [hw']
          exact (hbehind w').symm

/-- The setting names a source file. -/
def Setting.isFile : Setting → Bool
  | .given .file _ => true
  | _ => false

theorem apply_keepsRun {s : Setting} (hs : s ≠ .run) (host : Paths.Host) (o : Options) (run : Bool) :
    s.apply host { o with run := run } = (s.apply host o).map fun t => { t with run := run } := by
  cases s with
  | given kind path =>
    cases kind <;>
    · simp only [Setting.apply]
      split
      · rfl
      · cases resolved host path <;> rfl
  | run => exact absurd rfl hs
  | verbose => rfl

/-- Without `-r` the other options are the same. -/
theorem settings_withoutRun (host : Paths.Host) (ss : List Setting) (o : Options) (run : Bool) :
    Runs.run (Setting.apply host) (ss.filter (· ≠ .run)) { o with run := run } =
      (Runs.run (Setting.apply host) ss o).map fun t => { t with run := run } := by
  induction ss generalizing o with
  | nil => rfl
  | cons s ss ih =>
    by_cases hs : s = .run
    · rw [hs]
      exact ih { o with run := true }
    · rw [List.filter_cons_of_pos (by simpa using hs), run_cons, run_cons, apply_keepsRun hs]
      cases s.apply host o with
      | error e => rfl
      | ok t => exact ih t

theorem apply_keepsSrc {s : Setting} (hs : s.isFile = false) (host : Paths.Host) (o : Options)
    (src : Option Text) :
    s.apply host { o with src := src } = (s.apply host o).map fun t => { t with src := src } := by
  cases s with
  | given kind path =>
    cases kind with
    | file => cases hs
    | dir =>
      simp only [Setting.apply]
      split
      · rfl
      · cases resolved host path <;> rfl
    | output =>
      simp only [Setting.apply]
      split
      · rfl
      · cases resolved host path <;> rfl
  | run => rfl
  | verbose => rfl

/-- Without `-f` the other options of an accepted command line are the same. -/
theorem settings_withoutFile {host : Paths.Host} {ss : List Setting} {o t : Options}
    (h : Runs.run (Setting.apply host) ss o = .ok t) :
    Runs.run (Setting.apply host) (ss.filter fun s => !s.isFile) { o with src := none } =
      .ok { t with src := none } := by
  induction ss generalizing o with
  | nil =>
    cases h
    rfl
  | cons s ss ih =>
    obtain ⟨u, hu, ht⟩ := bind_eq_ok.mp h
    cases hs : s.isFile with
    | true =>
      have hsame : { o with src := none } = { u with src := none } := by
        cases s with
        | given kind path =>
          cases kind with
          | file =>
            obtain ⟨_, _, _, rfl⟩ := apply_file.mp hu
            rfl
          | dir => cases hs
          | output => cases hs
        | run => cases hs
        | verbose => cases hs
      rw [List.filter_cons_of_neg (by simp [hs]), hsame]
      exact ih ht
    | false =>
      rw [List.filter_cons_of_pos (by simp [hs]), run_cons, apply_keepsSrc hs, hu]
      exact ih ht

/-- A command line with `-r` does what it does without it and then, where that ended with
status 0, what it does without `-f`. -/
theorem main_separately (env : Env) (k : Nat) (ss : List Setting) (w : World) (hrun : .run ∈ ss) :
    main env k (ss.flatMap Setting.words) w =
      (main env k ((ss.filter (· ≠ .run)).flatMap Setting.words) w).andThen
        fun w => main env k ((ss.filter fun s => !s.isFile).flatMap Setting.words) w := by
  have hwithout := settings_withoutRun env.paths ss .start false
  simp only [main, options_settings]
  cases hss : Runs.run (Setting.apply env.paths) ss .start with
  | error e =>
    rw [hss] at hwithout
    have hopts : options env.paths (ss.flatMap Setting.words) .start = .error e := by
      rw [options_settings, hss]
    have hsame : Runs.run (Setting.apply env.paths) (ss.filter (· ≠ .run)) .start = .error e :=
      hwithout
    rw [hsame]
    exact ((options_fails hopts w).andThen _).symm
  | ok o =>
    rw [hss] at hwithout
    have hfiles := settings_withoutFile hss
    have ho : o.run = true := by
      rw [((run_apply ss (Nat.zero_le _)).mp hss).run]
      simp [hrun]
    have hsame : Runs.run (Setting.apply env.paths) (ss.filter (· ≠ .run)) .start =
        .ok { o with run := false } := hwithout
    have hrest : Runs.run (Setting.apply env.paths) (ss.filter fun s => !s.isFile) .start =
        .ok { o with src := none } := hfiles
    rw [hsame, hrest]
    exact mainWith_separately ho

/-- No call fails on the way from the source, whose bytes are `bytes`, to the saved program. -/
structure Works (env : Env) (w : World) (src out : Text) (bytes : List Byte) : Prop where
  reads : env.openFile w.disk src = .ok bytes
  malloc : ∃ fresh, env.malloc chunk = .ok fresh
  realloc : ∀ size, ∃ fresh, env.realloc size = .ok fresh
  writable : env.unwritable out = none
  fwrite : ∀ i, env.fwrite out i = true
  kept : ∀ bytes, env.kept out bytes = bytes
  readable : env.unreadable out = none

/-- What `main` makes of a run. -/
def finish (w : World) : Except Vm.Fault (Outcome Vm.Chip) → Ending
  | .error _ => .wild
  | .ok (.next chip) => .running (w.ran chip)
  | .ok (.stop chip) =>
    if chip.state = .fail then (w.ran chip).die "mc32 fail".toList else .exit 0 (w.ran chip)

theorem Works.loads {bytes : List Byte} (hworks : Works env w src out bytes) (dinc : List Text) :
    ∃ block, loadCode (env.loading w.disk) dinc src = .ok block ∧
      stringAt block = (bytes.takeWhile (· ≠ 0)).map charOf := by
  have hreads := hworks.reads
  have hexists : (w.disk src).isSome := by
    rw [Env.openFile] at hreads
    cases hdisk : w.disk src with
    | none => simp [hdisk] at hreads
    | some _ => rfl
  have hfname : findFile (env.loading w.disk).fileExists dinc src = .ok src := if_pos hexists
  have hopen : (env.loading w.disk).fopen src = .ok (env.cuts bytes) := by
    exact congrArg (Except.map env.cuts) hreads
  obtain ⟨rest, hload, _, hstring⟩ := loadCode_contents (env.loading w.disk) dinc src src _ hfname
    hopen hworks.malloc hworks.realloc
  rw [env.contents_cuts] at hload hstring
  exact ⟨_, hload, hstring⟩

/-- The saved program runs as the flat machine does while the program counter stays inside the
page. -/
theorem runFile_flat {mc : List Vm.Command} (hdisk : w.disk out = some (commandsSave mc))
    (hread : env.unreadable out = none) (hprog : Vm.Runnable mc)
    (hpage : ∀ i < k, ∀ d, Vm.flatRun (ObjectFile.host (commandsSave mc) env.ram env.un) mc i =
      .ok (.next d) → Vm.Within d 512) :
    runFile env k out w =
      finish w (Vm.flatRun (ObjectFile.host (commandsSave mc) env.ram env.un) mc k) := by
  have hopen : env.openFile w.disk out = .ok (commandsSave mc) := by
    simp only [Env.openFile, hdisk, hread]
  have hlen := env.length_page
  have hrun := @Vm.run_onPage mc env.page k (by omega) env.ram env.un hprog
    fun i hi d hd => hlen ▸ hpage i hi d hd
  simp only [runFile, hopen, hrun]
  cases Vm.flatRun (ObjectFile.host (commandsSave mc) env.ram env.un) mc k with
  | error fault => rfl
  | ok r =>
    cases r with
    | next d => rfl
    | stop d =>
      have hchip : (Vm.onPage mc env.page d).chip.state = d.state := rfl
      simp only [map_ok, Outcome.map, finish, Vm.returned, hchip]
      by_cases hfail : d.state = .fail
      · rw [if_pos hfail, if_pos hfail, if_pos (by decide)]
        rfl
      · rw [if_neg hfail, if_neg hfail, if_neg (by decide)]
        rfl

/-- From the file to the end: what a source that assembles does when it is compiled and run
is what the flat machine does with the assembled commands, as long as the program counter
stays inside the page. -/
theorem main_flat (env : Env) (k : Nat) (argv : List Text) (w : World) (o : Options)
    (src path out : Text) (bytes : List Byte) (c : Asmchip32)
    (hopts : options env.paths argv .start = .ok o) (hrun : o.run = true)
    (hsrc : o.src = some src) (hpath : o.out = some path)
    (hout : Paths.pathResolve env.paths path = .ok out) (hworks : Works env w src out bytes)
    (hbuild : build ((bytes.takeWhile (· ≠ 0)).map charOf) = .ok c) (hprog : Vm.Runnable c.mc)
    (hpage : ∀ i < k, ∀ d, Vm.flatRun (ObjectFile.host (commandsSave c.mc) env.ram env.un) c.mc i =
      .ok (.next d) → Vm.Within d 512) :
    ∃ w', w'.disk = writeFile w.disk out (commandsSave c.mc) ∧
      (o.verbose = false → w'.stdout = w.stdout ∧ w'.stderr = w.stderr) ∧
      main env k argv w =
        finish w' (Vm.flatRun (ObjectFile.host (commandsSave c.mc) env.ram env.un) c.mc k) := by
  obtain ⟨block, hload, hstring⟩ := hworks.loads o.dinclude
  rw [main, hopts]
  simp only [mainWith_source hpath (resolved_ok.mpr hout) hsrc]
  have hok : ∃ w', compile env o src out w = .ok w' := by
    simp only [compile, hload, hstring, hbuild, save, hworks.writable,
      commandsSaveOn_took _ c.mc hworks.fwrite, if_true]
    exact ⟨_, rfl⟩
  obtain ⟨v, hv⟩ := hok
  rcases compile_cases env o src out w with
    ⟨e, he, _⟩ | ⟨_, e, he, _⟩ | ⟨c', w', hw', hsaved⟩
  · cases he.symm.trans hv
  · cases he.symm.trans hv
  · obtain ⟨block', hload', hbuild'⟩ := hsaved.built
    obtain rfl : block = block' := Except.ok.inj (hload.symm.trans hload')
    rw [hstring] at hbuild'
    obtain rfl : c = c' := Except.ok.inj (hbuild.symm.trans hbuild')
    have hall := (prefix_written env out c.mc).2 hworks.fwrite hworks.kept
    have hdisk : w'.disk = writeFile w.disk out (commandsSave c.mc) := hall ▸ hsaved.disk
    have hfile : w'.disk out = some (commandsSave c.mc) := by
      rw [hdisk, writeFile_same]
    refine ⟨w', hdisk, hsaved.quiet, ?_⟩
    rw [hw']
    simp only [hrun, if_true]
    exact runFile_flat hfile hworks.readable hprog hpage

/-- `initr 64` and `logi 7`. -/
def bytesSeven : List Byte :=
  [105, 110, 105, 116, 114, 32, 54, 52, 10, 108, 111, 103, 105, 32, 55, 10]

def envSeven : Env where
  paths := ⟨.ok ['/'], .ok ['/']⟩
  cuts bytes := if bytes = [] then [] else [bytes]
  contents_cuts bytes := by
    by_cases h : bytes = []
    · rw [if_pos h, h]
      rfl
    · rw [if_neg h, contents, List.takeWhile_cons_of_pos (by simpa using h)]
      simp
  noEntry := "No such file or directory".toList
  unreadable _ := none
  unwritable _ := none
  fwrite _ _ := true
  kept _ bytes := bytes
  prefix_kept _ _ := List.prefix_rfl
  malloc _ := .ok fun _ => 1
  realloc _ := .ok fun _ => 1
  page := List.replicate 512 ⟨0, 0, 0, 0⟩
  length_page := List.length_replicate
  ram _ := some fun _ => 9
  un := ⟨⟨0, 0, 0, 0⟩, true⟩

def worldSeven : World where
  disk name := if name = ['/', 'a'] then some bytesSeven else none
  stdout := []
  stderr := []

def settingsSeven : List Setting :=
  [.given .file ['/', 'a'], .given .output ['/', 'b'], .run]

def mcSeven : List Vm.Command := [⟨0, 0x30, 64, 0⟩, ⟨0, 0x40, 7, 0⟩]

theorem main_separately_seven :
    main envSeven 3 [['-', 'f'], ['/', 'a'], ['-', 'o'], ['/', 'b'], ['-', 'r']] worldSeven =
      (main envSeven 3 [['-', 'f'], ['/', 'a'], ['-', 'o'], ['/', 'b']] worldSeven).andThen
        fun w => main envSeven 3 [['-', 'o'], ['/', 'b'], ['-', 'r']] w :=
  main_separately envSeven 3 settingsSeven worldSeven (by decide)

/-- A run that goes on has the program counter in the first page. -/
def inFirstPage : Except Vm.Fault (Runs.Outcome Vm.Chip) → Bool
  | .ok (.next d) => decide (Vm.Within d 512)
  | _ => true

theorem main_flat_seven : ∃ w', w'.disk = writeFile worldSeven.disk ['/', 'b'] (commandsSave mcSeven) ∧
    main envSeven 3 (settingsSeven.flatMap Setting.words) worldSeven =
      finish w' (Vm.flatRun (ObjectFile.host (commandsSave mcSeven) envSeven.ram envSeven.un)
        mcSeven 3) := by
  have hbuild : (build ((bytesSeven.takeWhile (· ≠ 0)).map charOf)).toOption.map (·.mc) =
      some mcSeven := by decide +kernel
  obtain ⟨c, hc, hmc⟩ := Option.map_eq_some_iff.mp hbuild
  have hflat : ∀ i < 3, ∀ d, Vm.flatRun
      (ObjectFile.host (commandsSave mcSeven) envSeven.ram envSeven.un) mcSeven i = .ok (.next d) →
      Vm.Within d 512 := by
    have hcheck : ∀ i < 3, inFirstPage (Vm.flatRun
        (ObjectFile.host (commandsSave mcSeven) envSeven.ram envSeven.un) mcSeven i) = true := by
      decide +kernel
    intro i hi d hd
    have hwithin := hcheck i hi
    rw [hd] at hwithin
    exact of_decide_eq_true hwithin
  have hprog : Vm.Runnable mcSeven := ⟨rfl, by decide⟩
  have hopts : options envSeven.paths (settingsSeven.flatMap Setting.words) .start =
    .ok ⟨[], some ['/', 'a'], some ['/', 'b'], false, true⟩ := by decide
  rw [← hmc] at hflat hprog ⊢
  obtain ⟨w', hdisk, _, hmain⟩ := main_flat envSeven 3 (settingsSeven.flatMap Setting.words)
    worldSeven _ ['/', 'a'] ['/', 'b'] ['/', 'b'] bytesSeven c hopts rfl rfl rfl (by decide)
    ⟨rfl, ⟨_, rfl⟩, fun _ => ⟨_, rfl⟩, rfl, fun _ => rfl, fun _ => rfl, rfl⟩ (ok_of_toOption hc) hprog hflat
  exact ⟨w', hdisk, hmain⟩

end Main
