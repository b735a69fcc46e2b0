import Chip32.LoadCode
import Mathlib.Data.List.Forall2

/-!
# The command line of `main.c`

The words of a command line are settings, one after the other. What is accepted, and what
comes of it, is said once for all orders: the settings of each kind are gathered, and only
the directories are in an order that counts.
-/
namespace Main

open Runs Asm Paths

/-- `MAX_DIR_INCLUDE`. -/
def maxDirInclude : Nat := 32

/-- How `main` ends early: with a status and a message on `stderr`, or where C leaves
undefined what happens. -/
inductive Exit where
  | exit (status : Nat) (stderr : Text)
  | wild
  deriving DecidableEq, Repr

/-- `die` ends with a newline and status 1. -/
def Exit.ofStop : Paths.Stop → Exit
  | .die message => .exit 1 (message ++ ['\n'])
  | .wild => .wild

/-- The variables of `main` that its options set. -/
structure Options where
  dinclude : List Text
  src : Option Text
  out : Option Text
  verbose : Bool
  run : Bool
  deriving DecidableEq, Repr

/-- Their values in front of the loop. -/
def Options.start : Options := ⟨[], none, none, false, false⟩

def usage : Text :=
  ("usage:\n" ++
    "\t-i <dir>   /* add include directory                   */\n" ++
    "\t-f <file>  /* source code file                        */\n" ++
    "\t-o <file>  /* output filename  or builded file to run */\n" ++
    "\t-r         /* run -o file                             */\n" ++
    "\t-v         /* verbose mode                            */\n" ++
    "\t-h         /* display this                            */\n").toList

/-- `WRONGA`. -/
def wrongArguments : Exit := .exit 1 "wrong numbers of arguments\n".toList

/-- `path_resolve` as `main` calls it. -/
def resolved (host : Paths.Host) (path : Text) : Except Exit Text :=
  match pathResolve host path with
  | .ok p => .ok p
  | .error stop => .error (.ofStop stop)

/-- The loop over `argv`. -/
def options (host : Paths.Host) : List Text → Options → Except Exit Options
  | [], o => .ok o
  | arg :: args, o =>
    if arg = ['-', 'i'] then
      match args with
      | [] => .error wrongArguments
      | path :: args =>
        if maxDirInclude ≤ o.dinclude.length then .error (.exit 1 "too much dir include\n".toList)
        else do
          let p ← resolved host path
          options host args { o with dinclude := o.dinclude ++ [p] }
    else if arg = ['-', 'f'] then
      match args with
      | [] => .error wrongArguments
      | path :: args =>
        if o.src.isSome then .error (.exit 1 "already set file\n".toList)
        else do
          let p ← resolved host path
          options host args { o with src := some p }
    else if arg = ['-', 'o'] then
      match args with
      | [] => .error wrongArguments
      | path :: args =>
        if o.out.isSome then .error (.exit 1 "already set output\n".toList)
        else do
          let p ← resolved host path
          options host args { o with out := some p }
    else if arg = ['-', 'r'] then options host args { o with run := true }
    else if arg = ['-', 'v'] then options host args { o with verbose := true }
    else .error (.exit 1 usage)

/-- The options with an argument. -/
inductive Kind where
  | dir
  | file
  | output
  deriving DecidableEq, Repr

/-- One option, with its argument. -/
inductive Setting where
  | given (kind : Kind) (path : Text)
  | run
  | verbose
  deriving DecidableEq, Repr

def Kind.word : Kind → Text
  | .dir => ['-', 'i']
  | .file => ['-', 'f']
  | .output => ['-', 'o']

/-- How it is written on the command line. -/
def Setting.words : Setting → List Text
  | .given kind path => [kind.word, path]
  | .run => [['-', 'r']]
  | .verbose => [['-', 'v']]

/-- The arguments of one kind, in their order. -/
def pathsOf (kind : Kind) (ss : List Setting) : List Text :=
  ss.filterMap fun s => match s with
    | .given k path => if k = kind then some path else none
    | _ => none

/-- The paths, each as `path_resolve` returns it. -/
def Resolved (host : Paths.Host) : List Text → List Text → Prop :=
  List.Forall₂ fun path p => pathResolve host path = .ok p

/-- What the settings make of `o`. -/
structure Gathers (host : Paths.Host) (ss : List Setting) (o o' : Options) : Prop where
  dirs : ∃ ps, Resolved host (pathsOf .dir ss) ps ∧ o'.dinclude = o.dinclude ++ ps
  few : o'.dinclude.length ≤ maxDirInclude
  src : ∃ ps, Resolved host (pathsOf .file ss) ps ∧ o'.src.toList = o.src.toList ++ ps
  out : ∃ ps, Resolved host (pathsOf .output ss) ps ∧ o'.out.toList = o.out.toList ++ ps
  run : o'.run = (o.run || decide (.run ∈ ss))
  verbose : o'.verbose = (o.verbose || decide (.verbose ∈ ss))

/-- What one setting does. -/
def Setting.apply (host : Paths.Host) (o : Options) : Setting → Except Exit Options
  | .given .dir path =>
    if maxDirInclude ≤ o.dinclude.length then .error (.exit 1 "too much dir include\n".toList)
    else do
      let p ← resolved host path
      pure { o with dinclude := o.dinclude ++ [p] }
  | .given .file path =>
    if o.src.isSome then .error (.exit 1 "already set file\n".toList)
    else do
      let p ← resolved host path
      pure { o with src := some p }
  | .given .output path =>
    if o.out.isSome then .error (.exit 1 "already set output\n".toList)
    else do
      let p ← resolved host path
      pure { o with out := some p }
  | .run => pure { o with run := true }
  | .verbose => pure { o with verbose := true }

variable {host : Paths.Host} {args : List Text} {ss : List Setting} {o o' : Options}

/-- The words of a setting are read together. -/
theorem options_words (s : Setting) (args : List Text) (o : Options) :
    options host (s.words ++ args) o = s.apply host o >>= options host args := by
  cases s with
  | given kind path =>
    cases kind <;>
    · simp only [Setting.words, Kind.word, List.cons_append, List.nil_append, options,
        Setting.apply]
      simp only [reduceIte, List.cons.injEq, Char.reduceEq, and_false, and_true]
      split
      · rfl
      · cases resolved host path <;> rfl
  | run => cases args <;> simp [Setting.words, options, Setting.apply]
  | verbose => cases args <;> simp [Setting.words, options, Setting.apply]

theorem options_settings (ss : List Setting) (o : Options) :
    options host (ss.flatMap Setting.words) o = Runs.run (Setting.apply host) ss o := by
  induction ss generalizing o with
  | nil => rfl
  | cons s ss ih =>
    rw [List.flatMap_cons, options_words, run_cons]
    cases s.apply host o with
    | error e => rfl
    | ok o' => exact ih o'

/-- A command line that is accepted is made of settings. -/
theorem settings_of_options (h : options host args o = .ok o') :
    ∃ ss : List Setting, args = ss.flatMap Setting.words := by
  induction hn : args.length using Nat.strongRecOn generalizing args o with
  | ind n ih =>
    subst hn
    have hwords : ∀ (s : Setting) rest, args = s.words ++ rest →
        ∃ ss : List Setting, args = ss.flatMap Setting.words := by
      intro s rest hargs
      rw [hargs, options_words, bind_eq_ok] at h
      obtain ⟨t, _, ht⟩ := h
      have hlt : rest.length < args.length := by
        rw [hargs, List.length_append]
        cases s <;> simp [Setting.words]
      obtain ⟨ss, hss⟩ := ih rest.length hlt ht rfl
      exact ⟨s :: ss, by rw [hargs, hss, List.flatMap_cons]⟩
    cases args with
    | nil => exact ⟨[], rfl⟩
    | cons arg args =>
      have hkind : ∀ kind : Kind, arg = kind.word →
          ∃ ss : List Setting, arg :: args = ss.flatMap Setting.words := by
        intro kind harg
        cases args with
        | nil =>
          subst harg
          cases kind <;> simp [options, Kind.word] at h
        | cons path args => exact hwords (.given kind path) args (by rw [harg]; rfl)
      by_cases hdir : arg = ['-', 'i']
      · exact hkind .dir hdir
      by_cases hfile : arg = ['-', 'f']
      · exact hkind .file hfile
      by_cases hout : arg = ['-', 'o']
      · exact hkind .output hout
      by_cases hrun : arg = ['-', 'r']
      · exact hwords .run args (by rw [hrun]; rfl)
      by_cases hverbose : arg = ['-', 'v']
      · exact hwords .verbose args (by rw [hverbose]; rfl)
      · cases args <;> simp [options, hdir, hfile, hout, hrun, hverbose] at h

theorem resolved_ok {path p : Text} : resolved host path = .ok p ↔ pathResolve host path = .ok p := by
  rw [resolved]
  cases pathResolve host path <;> simp

@[simp] theorem pathsOf_nil (kind : Kind) : pathsOf kind [] = [] := rfl

@[simp] theorem pathsOf_given (kind k : Kind) (path : Text) (ss : List Setting) :
    pathsOf kind (.given k path :: ss) =
      if k = kind then path :: pathsOf kind ss else pathsOf kind ss := by
  cases k <;> cases kind <;> rfl

@[simp] theorem pathsOf_run (kind : Kind) (ss : List Setting) :
    pathsOf kind (.run :: ss) = pathsOf kind ss := rfl

@[simp] theorem pathsOf_verbose (kind : Kind) (ss : List Setting) :
    pathsOf kind (.verbose :: ss) = pathsOf kind ss := rfl

theorem bind_resolved {path : Text} {f : Text → Options} {t : Options} :
    (resolved host path >>= fun p => pure (f p)) = .ok t ↔
      ∃ p, pathResolve host path = .ok p ∧ f p = t := by
  simp only [bind_eq_ok, resolved_ok, pure_ok, Except.ok.injEq]

theorem apply_dir {path : Text} {t : Options} :
    Setting.apply host o (.given .dir path) = .ok t ↔ o.dinclude.length < maxDirInclude ∧
      ∃ p, pathResolve host path = .ok p ∧ { o with dinclude := o.dinclude ++ [p] } = t := by
  rw [Setting.apply, ← bind_resolved]
  by_cases hfew : maxDirInclude ≤ o.dinclude.length
  · simp [hfew, Nat.not_lt.mpr hfew]
  · rw [if_neg hfew]
    exact (and_iff_right (Nat.not_le.mp hfew)).symm

theorem apply_file {path : Text} {t : Options} :
    Setting.apply host o (.given .file path) = .ok t ↔
      o.src = none ∧ ∃ p, pathResolve host path = .ok p ∧ { o with src := some p } = t := by
  rw [Setting.apply, ← bind_resolved]
  cases o.src with
  | some _ => simp
  | none => exact (and_iff_right rfl).symm

theorem apply_output {path : Text} {t : Options} :
    Setting.apply host o (.given .output path) = .ok t ↔
      o.out = none ∧ ∃ p, pathResolve host path = .ok p ∧ { o with out := some p } = t := by
  rw [Setting.apply, ← bind_resolved]
  cases o.out with
  | some _ => simp
  | none => exact (and_iff_right rfl).symm

/-- An argument that can be given once. -/
theorem once {a b : Option Text} {p : Text} {ps : List Text} (h : b.toList = a.toList ++ p :: ps) :
    a = none ∧ b.toList = (some p).toList ++ ps := by
  cases a with
  | none => exact ⟨rfl, h⟩
  | some _ => cases b <;> simp at h

theorem toList_injective {a b : Option Text} (h : a.toList = b.toList) : a = b := by
  cases a <;> cases b <;> simp_all

theorem gathers_nil (ho : o.dinclude.length ≤ maxDirInclude) : o = o' ↔ Gathers host [] o o' := by
  constructor
  · rintro rfl
    exact ⟨⟨[], .nil, by simp⟩, ho, ⟨[], .nil, by simp⟩, ⟨[], .nil, by simp⟩, by simp, by simp⟩
  · intro h
    obtain ⟨_, hd, hdirs⟩ := h.dirs
    obtain ⟨_, hf, hsrc⟩ := h.src
    obtain ⟨_, hp, hout⟩ := h.out
    cases hd
    cases hf
    cases hp
    have hsrc' : o'.src = o.src := toList_injective (by simpa using hsrc)
    have hout' : o'.out = o.out := toList_injective (by simpa using hout)
    have hrun := h.run
    have hverbose := h.verbose
    cases o
    cases o'
    simp_all

/-- The first setting and what the others make of it. -/
theorem gathers_cons (s : Setting) :
    (∃ t, s.apply host o = .ok t ∧ Gathers host ss t o') ↔ Gathers host (s :: ss) o o' := by
  cases s with
  | given kind path =>
    cases kind with
    | dir =>
      simp only [apply_dir]
      constructor
      · rintro ⟨_, ⟨_, p, hp, rfl⟩, h⟩
        obtain ⟨ps, hps, hdirs⟩ := h.dirs
        exact ⟨⟨p :: ps, by simpa using .cons hp hps, by simpa using hdirs⟩, h.few, by simpa using h.src,
          by simpa using h.out, by simpa using h.run, by simpa using h.verbose⟩
      · intro h
        obtain ⟨_, hall, hdirs⟩ := h.dirs
        rw [pathsOf_given, if_pos rfl] at hall
        obtain ⟨p, ps, hp, hps, rfl⟩ := List.forall₂_cons_left_iff.mp hall
        have hfew := h.few
        rw [hdirs, List.length_append, List.length_cons] at hfew
        exact ⟨_, ⟨by omega, p, hp, rfl⟩, ⟨ps, hps, by simpa using hdirs⟩, h.few, by simpa using h.src,
          by simpa using h.out, by simpa using h.run, by simpa using h.verbose⟩
    | file =>
      simp only [apply_file]
      constructor
      · rintro ⟨_, ⟨hnone, p, hp, rfl⟩, h⟩
        obtain ⟨ps, hps, hsrc⟩ := h.src
        exact ⟨by simpa using h.dirs, h.few, ⟨p :: ps, by simpa using .cons hp hps, by simpa [hnone] using hsrc⟩,
          by simpa using h.out, by simpa using h.run, by simpa using h.verbose⟩
      · intro h
        obtain ⟨_, hall, hsrc⟩ := h.src
        rw [pathsOf_given, if_pos rfl] at hall
        obtain ⟨p, ps, hp, hps, rfl⟩ := List.forall₂_cons_left_iff.mp hall
        obtain ⟨hnone, hsrc⟩ := once hsrc
        exact ⟨_, ⟨hnone, p, hp, rfl⟩, by simpa using h.dirs, h.few, ⟨ps, hps, hsrc⟩,
          by simpa using h.out, by simpa using h.run, by simpa using h.verbose⟩
    | output =>
      simp only [apply_output]
      constructor
      · rintro ⟨_, ⟨hnone, p, hp, rfl⟩, h⟩
        obtain ⟨ps, hps, hout⟩ := h.out
        exact ⟨by simpa using h.dirs, h.few, by simpa using h.src,
          ⟨p :: ps, by simpa using .cons hp hps, by simpa [hnone] using hout⟩,
          by simpa using h.run, by simpa using h.verbose⟩
      · intro h
        obtain ⟨_, hall, hout⟩ := h.out
        rw [pathsOf_given, if_pos rfl] at hall
        obtain ⟨p, ps, hp, hps, rfl⟩ := List.forall₂_cons_left_iff.mp hall
        obtain ⟨hnone, hout⟩ := once hout
        exact ⟨_, ⟨hnone, p, hp, rfl⟩, by simpa using h.dirs, h.few, by simpa using h.src,
          ⟨ps, hps, hout⟩, by simpa using h.run, by simpa using h.verbose⟩
  | run =>
    simp only [Setting.apply, pure_ok, Except.ok.injEq, exists_eq_left']
    constructor
    · intro h
      exact ⟨h.dirs, h.few, h.src, h.out, by simpa using h.run, by simpa using h.verbose⟩
    · intro h
      exact ⟨h.dirs, h.few, h.src, h.out, by simpa using h.run, by simpa using h.verbose⟩
  | verbose =>
    simp only [Setting.apply, pure_ok, Except.ok.injEq, exists_eq_left']
    constructor
    · intro h
      exact ⟨h.dirs, h.few, h.src, h.out, by simpa using h.run, by simpa using h.verbose⟩
    · intro h
      exact ⟨h.dirs, h.few, h.src, h.out, by simpa using h.run, by simpa using h.verbose⟩

theorem apply_few (s : Setting) (ho : o.dinclude.length ≤ maxDirInclude) {t : Options}
    (ht : s.apply host o = .ok t) : t.dinclude.length ≤ maxDirInclude := by
  cases s with
  | given kind path =>
    cases kind with
    | dir =>
      obtain ⟨hfew, _, _, rfl⟩ := apply_dir.mp ht
      simpa using Nat.succ_le_of_lt hfew
    | file =>
      obtain ⟨_, _, _, rfl⟩ := apply_file.mp ht
      exact ho
    | output =>
      obtain ⟨_, _, _, rfl⟩ := apply_output.mp ht
      exact ho
  | run =>
    cases ht
    exact ho
  | verbose =>
    cases ht
    exact ho

theorem run_apply (ss : List Setting) (ho : o.dinclude.length ≤ maxDirInclude) :
    Runs.run (Setting.apply host) ss o = .ok o' ↔ Gathers host ss o o' := by
  induction ss generalizing o with
  | nil => exact Except.ok.injEq o o' ▸ gathers_nil ho
  | cons s ss ih =>
    rw [← gathers_cons s, run_cons, bind_eq_ok]
    exact exists_congr fun t => and_congr_right fun ht => ih (apply_few s ho ht)

/-- A command line is accepted exactly when it is made of settings of which no more than
32 are directories and no more than one is a source and one an output, all of whose paths
are resolved. The settings then stand for themselves wherever they are: the directories
are searched in their order, and no other order counts. -/
theorem options_iff (host : Paths.Host) (args : List Text) (o : Options) :
    options host args .start = .ok o ↔ ∃ ss : List Setting, args = ss.flatMap Setting.words ∧
      Resolved host (pathsOf .dir ss) o.dinclude ∧ o.dinclude.length ≤ 32 ∧
      Resolved host (pathsOf .file ss) o.src.toList ∧
      Resolved host (pathsOf .output ss) o.out.toList ∧
      (o.run = true ↔ .run ∈ ss) ∧ (o.verbose = true ↔ .verbose ∈ ss) := by
  have hgathers : ∀ ss, Gathers host ss .start o ↔
      Resolved host (pathsOf .dir ss) o.dinclude ∧ o.dinclude.length ≤ 32 ∧
      Resolved host (pathsOf .file ss) o.src.toList ∧
      Resolved host (pathsOf .output ss) o.out.toList ∧
      (o.run = true ↔ .run ∈ ss) ∧ (o.verbose = true ↔ .verbose ∈ ss) := by
    intro ss
    constructor
    · intro h
      obtain ⟨ds, hds, hdirs⟩ := h.dirs
      obtain ⟨fs, hfs, hsrc⟩ := h.src
      obtain ⟨ps, hps, hout⟩ := h.out
      refine ⟨?_, h.few, ?_, ?_, ?_, ?_⟩
      · rwa [hdirs]
      · rwa [hsrc]
      · rwa [hout]
      · simp [h.run, Options.start]
      · simp [h.verbose, Options.start]
    · intro h
      obtain ⟨hdirs, hfew, hsrc, hout, hrun, hverbose⟩ := h
      refine ⟨⟨_, hdirs, rfl⟩, hfew, ⟨_, hsrc, rfl⟩, ⟨_, hout, rfl⟩, ?_, ?_⟩
      · exact Bool.eq_iff_iff.mpr (by simpa [Options.start] using hrun)
      · exact Bool.eq_iff_iff.mpr (by simpa [Options.start] using hverbose)
  constructor
  · intro h
    obtain ⟨ss, rfl⟩ := settings_of_options h
    rw [options_settings, run_apply ss (Nat.zero_le _)] at h
    exact ⟨ss, rfl, (hgathers ss).mp h⟩
  · intro ⟨ss, hargs, h⟩
    rw [hargs, options_settings, run_apply ss (Nat.zero_le _)]
    exact (hgathers ss).mpr h

end Main
