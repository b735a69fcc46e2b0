import Mathlib.Data.List.Basic
import Mathlib.Data.List.TakeDrop

/-!
# Resolving a path

`path_resolve` goes over the characters of a path once. It knows the dots by the
character behind them, not by where a component begins, and a `..` cuts what is already
written. What is written is read here as whole names behind slashes and a last part that
is still open; one component of the path changes that reading as `Kept.read` says.
-/
namespace Paths

/-- `PATH_MAX`, the size of `cur` and of `out`. -/
def pathMax : Nat := 4096

/-- How a call ends that does not return: `die`, or an access outside a buffer. -/
inductive Stop where
  | die (message : List Char)
  | wild
  deriving DecidableEq, Repr

/-- What the host answers: `HOME` and `getcwd`, or the text of `errno`. -/
structure Host where
  home : Except (List Char) (List Char)
  cwd : Except (List Char) (List Char)

/-- The string and its final zero in a buffer of `PATH_MAX`. -/
def terminated (out : List Char) : Except Stop (List Char) :=
  if out.length < pathMax then .ok out else .error .wild

def pathCurrent (host : Host) : Except Stop (List Char) :=
  match host.cwd with
  | .ok path => terminated path
  | .error text => .error (.die ("error getcwd:".toList ++ text))

def pathHome (host : Host) : Except Stop (List Char) :=
  match host.home with
  | .ok hd => terminated hd
  | .error text => .error (.die ("error getpwuid:".toList ++ text))

/-- `strrchr` and the zero stored there. -/
def cutBack (path : List Char) : List Char :=
  if '/' ∈ path then (path.reverse.dropWhile (· ≠ '/')).tail.reverse else path

def pathKillBack (path : List Char) : Except Stop (List Char) :=
  if path.length = 1 then .ok path
  -- `path[len-1]` of the empty string
  else if path = [] then .error .wild
  else .ok (cutBack (if path.getLast? = some '/' then path.dropLast else path))

/-- The loop of `path_resolve`: what is left of `cur`, and `out` up to `pout`. -/
def resolveLoop : List Char → List Char → Except Stop (List Char)
  | [], out => terminated out
  | '.' :: '/' :: parse, out => resolveLoop parse out
  | ['.', '.'], out => do
    let out ← terminated out
    let out ← pathKillBack out
    resolveLoop [] out
  | '.' :: '.' :: '/' :: parse, out => do
    let out ← terminated out
    let out ← pathKillBack out
    resolveLoop ('/' :: parse) out
  | ch :: parse, out =>
    if out.length < pathMax then resolveLoop parse (out ++ [ch]) else .error .wild

/-- `cur` followed by what stands behind the first `skip` characters of `path`. -/
def joined (cur path : List Char) (skip : Nat) : Except Stop (List Char) :=
  if path.length + cur.length > pathMax - 1 then
    .error (.die ("path ".toList ++ cur ++ " + ".toList ++ path ++ " to long".toList))
  -- a single character behind the `~` or the dots is left out
  else .ok (if skip + 1 < path.length then cur ++ path.drop skip else cur)

/-- The path is `name`, or begins with `name` and a slash. -/
def startsWith (name path : List Char) : Bool :=
  path = name || (name ++ ['/']).isPrefixOf path

/-- `cur` as the loop finds it. -/
def located (host : Host) (path : List Char) : Except Stop (List Char) :=
  if startsWith ['~'] path then do
    let cur ← pathHome host
    joined cur path 1
  else if startsWith ['.'] path then do
    let cur ← pathCurrent host
    joined cur path 1
  -- `strncmp` with `../` compares two characters
  else if ['.', '.'].isPrefixOf path then do
    let cur ← pathCurrent host
    let cur ← pathKillBack cur
    joined cur path 2
  else .ok path

/-- The copy of `out` that is returned has its memory. -/
def pathResolve (host : Host) (path : List Char) : Except Stop (List Char) :=
  if path.length > pathMax - 1 then
    .error (.die ("path ".toList ++ path ++ " to long".toList))
  else do
    let cur ← located host path
    resolveLoop cur []

@[simp] theorem terminated_ok {out : List Char} (h : out.length < pathMax) :
    terminated out = .ok out := if_pos h

theorem cutBack_append {name : List Char} (hname : '/' ∉ name) (path : List Char) :
    cutBack (path ++ '/' :: name) = path := by
  have hall : ∀ ch ∈ name.reverse, decide (ch ≠ '/') = true := by
    intro ch hch
    exact decide_eq_true fun h => hname (h ▸ List.mem_reverse.mp hch)
  rw [cutBack, if_pos (by simp), List.reverse_append, List.reverse_cons, List.append_assoc,
    List.dropWhile_append_of_pos hall]
  simp

/-- The loop takes the dots in front of `parse` for a component. -/
def AtDots (parse : List Char) : Prop :=
  ['.', '/'] <+: parse ∨ parse = ['.', '.'] ∨ ['.', '.', '/'] <+: parse

theorem resolveLoop_char {ch : Char} {parse out : List Char}
    (hdots : ¬ AtDots (ch :: parse)) (hroom : out.length < pathMax) :
    resolveLoop (ch :: parse) out = resolveLoop parse (out ++ [ch]) := by
  rw [resolveLoop]
  · exact if_pos hroom
  all_goals
    intros
    simp_all [AtDots]

theorem resolveLoop_slash {parse out : List Char} (hroom : out.length < pathMax) :
    resolveLoop ('/' :: parse) out = resolveLoop parse (out ++ ['/']) :=
  resolveLoop_char (by simp [AtDots]) hroom

theorem resolveLoop_dot (parse out : List Char) :
    resolveLoop ('.' :: '/' :: parse) out = resolveLoop parse out := by
  rw [resolveLoop]

/-- Inside a name nothing is taken for a component, unless a single dot ends the name. -/
theorem not_atDots {ch : Char} {name rest : List Char} (hname : '/' ∉ ch :: name)
    (hend : ['.', '.'] <+: rest ∨ ¬ ['.'] <:+ ch :: name) :
    ¬ AtDots (ch :: (name ++ rest)) := by
  intro h
  cases name with
  | nil =>
    rcases hend with hrest | hend
    · obtain ⟨rest, rfl⟩ := hrest
      simp [AtDots] at h
    · have hch : ch ≠ '.' := fun h => hend (h ▸ List.suffix_refl _)
      simp [AtDots, hch.symm] at h
      exact hch h.1
  | cons d name =>
    have hd : d ≠ '/' := fun h => hname (by simp [h])
    cases name with
    | nil =>
      rcases hend with hrest | hend
      · obtain ⟨rest, rfl⟩ := hrest
        simp [AtDots, hd.symm] at h
      · have hd' : d ≠ '.' := fun h => hend (h ▸ List.suffix_cons _ _)
        simp [AtDots, hd.symm, hd'.symm] at h
        exact hd' h.2.1
    | cons e name =>
      have he : e ≠ '/' := fun h => hname (by simp [h])
      simp [AtDots, hd.symm, he.symm] at h

theorem resolveLoop_name {name rest : List Char} (hname : '/' ∉ name)
    (hend : ['.', '.'] <+: rest ∨ ¬ ['.'] <:+ name) {out : List Char}
    (hroom : out.length + name.length ≤ pathMax) :
    resolveLoop (name ++ rest) out = resolveLoop rest (out ++ name) := by
  induction name generalizing out with
  | nil => simp
  | cons ch name ih =>
    rw [List.length_cons] at hroom
    have hend' : ['.', '.'] <+: rest ∨ ¬ ['.'] <:+ name :=
      hend.imp id fun h hs => h (hs.trans (List.suffix_cons ch name))
    rw [List.cons_append, resolveLoop_char (not_atDots hname hend) (by omega),
      ih (fun h => hname (List.mem_cons_of_mem ch h)) hend' (by simp; omega)]
    simp

theorem resolveLoop_copied {name : List Char} (hname : '/' ∉ name) (hend : ¬ ['.'] <:+ name)
    {out : List Char} (hroom : out.length + name.length < pathMax) :
    resolveLoop name out = .ok (out ++ name) := by
  have hcopy := @resolveLoop_name name [] hname (.inr hend) out (by omega)
  rwa [List.append_nil, resolveLoop, terminated_ok (by simpa using hroom)] at hcopy

abbrev Component := List Char

/-- What can stand between two slashes. -/
def Named (c : Component) : Prop := c ≠ [] ∧ '/' ∉ c

instance (c : Component) : Decidable (Named c) := inferInstanceAs (Decidable (_ ∧ _))

theorem Named.stem {c w ending : Component} (hc : Named c) (hw : c = w ++ ending) : '/' ∉ w :=
  fun h => hc.2 (hw ▸ List.mem_append_left ending h)

/-- The components, each behind a slash. -/
def render (cs : List Component) : List Char := cs.flatMap ('/' :: ·)

@[simp] theorem render_nil : render [] = [] := rfl

@[simp] theorem render_cons (c : Component) (cs : List Component) :
    render (c :: cs) = '/' :: (c ++ render cs) := rfl

@[simp] theorem render_append (cs ds : List Component) :
    render (cs ++ ds) = render cs ++ render ds := List.flatMap_append

/-- How a component ends: in two dots, in a single one, or in none. -/
theorem component_cases (c : Component) :
    (∃ w, c = w ++ ['.', '.']) ∨ (∃ w, c = w ++ ['.'] ∧ ¬ ['.'] <:+ w) ∨ ¬ ['.'] <:+ c := by
  by_cases hdot : ['.'] <:+ c
  · obtain ⟨w, rfl⟩ := hdot
    by_cases hw : ['.'] <:+ w
    · obtain ⟨v, rfl⟩ := hw
      exact .inl ⟨v, by simp⟩
    · exact .inr (.inl ⟨w, rfl, hw⟩)
  · exact .inr (.inr hdot)

/-- `out`: the whole names, what stands behind the last slash, and whether a slash too
many stands in front. -/
structure Kept where
  extra : Bool
  names : List Component
  part : Component

namespace Kept

/-- `out` without the last slash and what follows it. -/
def body (k : Kept) : List Char := List.replicate k.extra.toNat '/' ++ render k.names

def text (k : Kept) : List Char := k.body ++ '/' :: k.part

/-- `path_kill_back` and the slash behind the dots. The root loses nothing: with a second
slash behind it, it becomes the root with one too many, and that one loses both. -/
def pop (k : Kept) : Kept :=
  if k.part ≠ [] then { k with part := [] }
  else if k.names ≠ [] then { k with names := k.names.dropLast }
  else { k with extra := !k.extra }

def extend (k : Kept) (w : List Char) : Kept := { k with part := k.part ++ w }

def close (k : Kept) (c : Component) : Kept :=
  { k with names := k.names ++ [k.part ++ c], part := [] }

/-- One component of the path with a slash behind it. -/
def read (k : Kept) (c : Component) : Kept :=
  if ['.', '.'] <:+ c then (k.extend c.dropLast.dropLast).pop
  else if ['.'] <:+ c then k.extend c.dropLast
  else k.close c

/-- The names are names, and none of them is the dot. -/
structure Sound (k : Kept) : Prop where
  named : ∀ name ∈ k.names, Named name ∧ name ≠ ['.']
  open_part : '/' ∉ k.part

/-- The names a reader of the path keeps, where the open part has lost its dot. -/
def listed (k : Kept) : List Component :=
  k.names ++ if k.part = [] then [] else [k.part ++ ['.']]

@[simp] theorem extend_names (k : Kept) (w : List Char) : (k.extend w).names = k.names := rfl

@[simp] theorem extend_part (k : Kept) (w : List Char) : (k.extend w).part = k.part ++ w := rfl

@[simp] theorem extend_extra (k : Kept) (w : List Char) : (k.extend w).extra = k.extra := rfl

@[simp] theorem extend_body (k : Kept) (w : List Char) : (k.extend w).body = k.body := rfl

@[simp] theorem extend_text (k : Kept) (w : List Char) : (k.extend w).text = k.text ++ w := by
  simp [text]

@[simp] theorem extend_nil (k : Kept) : k.extend [] = k := by simp [extend]

theorem close_text (k : Kept) (c : Component) : (k.close c).text = k.text ++ (c ++ ['/']) := by
  simp [text, body, close]

theorem pop_open {k : Kept} (hpart : k.part ≠ []) : k.pop = { k with part := [] } := if_pos hpart

/-- The part that is open goes, or the last name, or the root changes. -/
theorem pop_cases (k : Kept) :
    (k.part ≠ [] ∧ k.pop = { k with part := [] }) ∨
      (k.part = [] ∧ ∃ names name, k.names = names ++ [name] ∧
        k.pop = { k with names := names }) ∨
      (k.part = [] ∧ k.names = [] ∧ k.pop = { k with extra := !k.extra }) := by
  by_cases hpart : k.part = []
  · rcases List.eq_nil_or_concat k.names with hnames | ⟨names, name, hnames⟩
    · exact .inr (.inr ⟨hpart, hnames, by simp [pop, hpart, hnames]⟩)
    · rw [List.concat_eq_append] at hnames
      exact .inr (.inl ⟨hpart, names, name, hnames, by simp [pop, hpart, hnames]⟩)
  · exact .inl ⟨hpart, pop_open hpart⟩

@[simp] theorem pop_part (k : Kept) : k.pop.part = [] := by
  rcases k.pop_cases with ⟨-, hpop⟩ | ⟨hpart, names, name, -, hpop⟩ | ⟨hpart, -, hpop⟩
  · rw [hpop]
  · rw [hpop, hpart]
  · rw [hpop, hpart]

theorem pop_text (k : Kept) : k.pop.text = k.pop.body ++ ['/'] := by simp [text]

theorem read_up {c w : List Char} (k : Kept) (hc : c = w ++ ['.', '.']) :
    k.read c = (k.extend w).pop := by
  subst hc
  rw [read, if_pos (List.suffix_append w _), List.dropLast_append_of_ne_nil (by simp)]
  simp

theorem not_up_of_dot {w : List Char} (hw : ¬ ['.'] <:+ w) : ¬ ['.', '.'] <:+ w ++ ['.'] :=
  fun ⟨v, hv⟩ => hw ⟨v, List.append_cancel_right (by simpa using hv)⟩

theorem not_up_of_name {c : Component} (hc : ¬ ['.'] <:+ c) : ¬ ['.', '.'] <:+ c :=
  fun h => hc ((List.suffix_cons '.' ['.']).trans h)

theorem read_dot {c w : List Char} (k : Kept) (hc : c = w ++ ['.']) (hw : ¬ ['.'] <:+ w) :
    k.read c = k.extend w := by
  subst hc
  rw [read, if_neg (not_up_of_dot hw), if_pos (List.suffix_append w _), List.dropLast_concat]

theorem read_name {c : Component} (k : Kept) (hc : ¬ ['.'] <:+ c) : k.read c = k.close c := by
  rw [read, if_neg (not_up_of_name hc), if_neg hc]

theorem Sound.extend {k : Kept} (hk : k.Sound) {w : List Char} (hw : '/' ∉ w) :
    (k.extend w).Sound where
  named := hk.named
  open_part h := (List.mem_append.mp h).elim hk.open_part hw

theorem Sound.close {k : Kept} (hk : k.Sound) {c : Component} (hc : Named c)
    (hend : ¬ ['.'] <:+ c) : (k.close c).Sound where
  named := by
    intro name hname
    rcases List.mem_append.mp hname with h | h
    · exact hk.named name h
    · rw [List.mem_singleton.mp h]
      refine ⟨⟨by simp [hc.1], fun h => (List.mem_append.mp h).elim hk.open_part hc.2⟩, ?_⟩
      intro hdot
      have hsuffix : c <:+ ['.'] := hdot ▸ List.suffix_append k.part c
      rcases List.suffix_cons_iff.mp hsuffix with h | h
      · exact hend (h ▸ List.suffix_refl _)
      · exact hc.1 (List.suffix_nil.mp h)
  open_part := List.not_mem_nil

theorem Sound.pop {k : Kept} (hk : k.Sound) : k.pop.Sound where
  named := by
    intro name hname
    apply hk.named
    rcases k.pop_cases with ⟨-, hpop⟩ | ⟨-, names, last, hnames, hpop⟩ | ⟨-, -, hpop⟩
    · rwa [hpop] at hname
    · rw [hpop] at hname
      rw [hnames]
      exact List.mem_append_left _ hname
    · rwa [hpop] at hname
  open_part := by simp

theorem Sound.read {k : Kept} (hk : k.Sound) {c : Component} (hc : Named c) :
    (k.read c).Sound := by
  rcases component_cases c with ⟨w, hw⟩ | ⟨w, hw, hend⟩ | hend
  · rw [k.read_up hw]
    exact (hk.extend (hc.stem hw)).pop
  · rw [k.read_dot hw hend]
    exact hk.extend (hc.stem hw)
  · rw [k.read_name hend]
    exact hk.close hc hend

theorem killBack_open {k : Kept} (hslash : '/' ∉ k.part) (hpart : k.part ≠ []) :
    pathKillBack k.text = .ok k.body := by
  have hlast : k.text.getLast? ≠ some '/' := by
    rw [text, List.append_cons, List.getLast?_append_of_ne_nil _ hpart]
    exact fun h => hslash (List.mem_of_getLast? h)
  have hlen : k.text.length ≠ 1 := by
    have := List.length_pos_iff.mpr hpart
    simp [text]
    omega
  rw [pathKillBack, if_neg hlen, if_neg (by simp [text]), if_neg hlast, text, cutBack_append hslash]

theorem killBack_last {k : Kept} (hpart : k.part = []) {names : List Component}
    {name : Component} (hnames : k.names = names ++ [name]) (hslash : '/' ∉ name) :
    pathKillBack k.text = .ok (List.replicate k.extra.toNat '/' ++ render names) := by
  have hlen : k.text.length ≠ 1 := by
    simp [text, body, hnames]
    omega
  have hcut : k.text.dropLast =
      (List.replicate k.extra.toNat '/' ++ render names) ++ '/' :: name := by
    rw [text, body, hpart, hnames, List.dropLast_concat]
    simp
  rw [pathKillBack, if_neg hlen, if_neg (by simp [text]), if_pos (by simp [text, hpart]), hcut,
    cutBack_append hslash]

/-- The cut of `out` is `pop`, up to the slash that follows. -/
theorem Sound.killBack {k : Kept} (hk : k.Sound) : pathKillBack k.text = .ok k.pop.body := by
  rcases k.pop_cases with ⟨hpart, hpop⟩ | ⟨hpart, names, name, hnames, hpop⟩ |
    ⟨hpart, hnames, hpop⟩
  · rw [killBack_open hk.open_part hpart, hpop]
    rfl
  · rw [killBack_last hpart hnames (hk.named name (by simp [hnames])).1.2, hpop, body]
  · rw [hpop]
    cases hextra : k.extra <;> simp [pathKillBack, text, body, hpart, hnames, hextra, cutBack]

@[simp] theorem pop_listed (k : Kept) : k.pop.listed = k.listed.dropLast := by
  rcases k.pop_cases with ⟨hpart, hpop⟩ | ⟨hpart, names, name, hnames, hpop⟩ |
    ⟨hpart, hnames, hpop⟩
  · simp [hpop, listed, hpart]
  · simp [hpop, listed, hpart, hnames]
  · simp [hpop, listed, hpart, hnames]

/-- Every cut changes the number of names by one, or the slash in front. -/
theorem pop_parity (k : Kept) :
    (k.pop.extra.toNat + k.pop.listed.length) % 2 = (k.extra.toNat + k.listed.length + 1) % 2 := by
  rw [pop_listed]
  rcases k.pop_cases with ⟨hpart, hpop⟩ | ⟨hpart, names, name, hnames, hpop⟩ |
    ⟨hpart, hnames, hpop⟩
  · simp [hpop, listed, hpart]
    omega
  · simp [hpop, listed, hpart, hnames]
    omega
  · cases hextra : k.extra <;> simp [hpop, listed, hpart, hnames, hextra]

theorem pop_length (k : Kept) : k.pop.text.length ≤ k.text.length + 1 := by
  rcases k.pop_cases with ⟨hpart, hpop⟩ | ⟨hpart, names, name, hnames, hpop⟩ |
    ⟨hpart, hnames, hpop⟩
  · simp [hpop, text, body]
    omega
  · simp [hpop, text, body, hnames]
    omega
  · cases hextra : k.extra
    · simp [hpop, text, body, hextra]
    · simp [hpop, text, body, hextra]
      omega

theorem read_length (k : Kept) (c : Component) :
    (k.read c).text.length ≤ k.text.length + c.length + 1 := by
  rcases component_cases c with ⟨w, hw⟩ | ⟨w, hw, hend⟩ | hend
  · rw [k.read_up hw]
    have := (k.extend w).pop_length
    simp [hw] at this ⊢
    omega
  · rw [k.read_dot hw hend]
    simp [hw]
    omega
  · simp [k.read_name hend, close_text]
    omega

end Kept

open Kept

/-- Two dots with the end or a slash behind them cut `out`. -/
theorem resolveLoop_up {k : Kept} (hk : k.Sound) (hroom : k.text.length < pathMax)
    {parse : List Char} (hparse : parse = [] ∨ ∃ rest, parse = '/' :: rest) :
    resolveLoop ('.' :: '.' :: parse) k.text = resolveLoop parse k.pop.body := by
  have hcut : resolveLoop ('.' :: '.' :: parse) k.text =
      (terminated k.text >>= pathKillBack) >>= fun out => resolveLoop parse out := by
    rcases hparse with rfl | ⟨rest, rfl⟩ <;> simp [resolveLoop]
  rw [hcut, terminated_ok hroom]
  change (pathKillBack k.text >>= fun out => resolveLoop parse out) = _
  rw [hk.killBack]
  rfl

/-- A component that ends in two dots cuts `out` behind the rest of its name. -/
theorem resolveLoop_endsUp {k : Kept} (hk : k.Sound) {c w : Component} (hc : Named c)
    (hw : c = w ++ ['.', '.']) (hroom : k.text.length + c.length < pathMax) {parse : List Char}
    (hparse : parse = [] ∨ ∃ rest, parse = '/' :: rest) :
    resolveLoop (c ++ parse) k.text = resolveLoop parse (k.read c).body ∧
      (k.read c).body.length < pathMax := by
  have hslash := hc.stem hw
  have hpop := pop_length (k.extend w)
  simp only [hw, pop_text, List.length_append, List.length_cons, List.length_nil,
    extend_text] at hroom hpop
  rw [k.read_up hw, hw, List.append_assoc, resolveLoop_name hslash (.inl ⟨_, rfl⟩) (by omega),
    ← extend_text]
  exact ⟨resolveLoop_up (hk.extend hslash) (by simp; omega) hparse, by omega⟩

/-- A component with a slash behind it. -/
theorem resolveLoop_read {k : Kept} (hk : k.Sound) {c : Component} (hc : Named c)
    {parse : List Char} (hroom : k.text.length + (c.length + 1 + parse.length) < pathMax) :
    resolveLoop (c ++ '/' :: parse) k.text = resolveLoop parse (k.read c).text := by
  rcases component_cases c with ⟨w, hw⟩ | ⟨w, hw, hend⟩ | hend
  · obtain ⟨hcut, hlen⟩ := resolveLoop_endsUp hk hc hw (by omega) (.inr ⟨parse, rfl⟩)
    rw [hcut, resolveLoop_slash hlen, k.read_up hw, pop_text]
  · have hslash := hc.stem hw
    simp only [hw, List.length_append, List.length_cons, List.length_nil] at hroom
    rw [k.read_dot hw hend, hw, List.append_assoc,
      resolveLoop_name hslash (.inr hend) (by omega), extend_text]
    exact resolveLoop_dot parse _
  · rw [k.read_name hend, resolveLoop_name hc.2 (.inr hend) (by omega),
      resolveLoop_slash (by simp; omega), close_text, List.append_assoc]

/-- The last component: two dots cut `out`, any other end is copied. -/
theorem resolveLoop_last {k : Kept} (hk : k.Sound) {c : Component} (hc : Named c)
    (hroom : k.text.length + c.length < pathMax) :
    resolveLoop c k.text =
      .ok (if ['.', '.'] <:+ c then (k.read c).body else (k.extend c).text) := by
  rcases component_cases c with ⟨w, hw⟩ | ⟨w, hw, hend⟩ | hend
  · obtain ⟨hcut, hlen⟩ := resolveLoop_endsUp hk hc hw hroom (.inl rfl)
    rw [List.append_nil] at hcut
    rw [if_pos ⟨w, hw.symm⟩, hcut, resolveLoop, terminated_ok hlen]
  · have hslash := hc.stem hw
    simp only [hw, List.length_append, List.length_cons, List.length_nil] at hroom
    rw [hw, if_neg (not_up_of_dot hend), resolveLoop_name hslash (.inr hend) (by omega),
      resolveLoop_char (by simp [AtDots]) (by simp; omega), resolveLoop,
      terminated_ok (by simp; omega), extend_text, List.append_assoc]
  · rw [if_neg (not_up_of_name hend), resolveLoop_copied hc.2 hend hroom, extend_text]

/-- All components of a path but the last. -/
theorem resolveLoop_run {cs : List Component} {k : Kept} (hk : k.Sound)
    (hcs : ∀ c ∈ cs, Named c) {parse : List Char}
    (hroom : k.text.length + ((cs.flatMap (· ++ ['/'])).length + parse.length) < pathMax) :
    resolveLoop (cs.flatMap (· ++ ['/']) ++ parse) k.text =
        resolveLoop parse (cs.foldl read k).text ∧
      (cs.foldl read k).Sound ∧ (cs.foldl read k).text.length + parse.length < pathMax := by
  induction cs generalizing k with
  | nil => exact ⟨rfl, hk, by simpa using hroom⟩
  | cons c cs ih =>
    have hc : Named c := hcs c List.mem_cons_self
    have hlen := k.read_length c
    simp only [List.flatMap_cons, List.length_append, List.length_cons, List.length_nil] at hroom
    have hrest := ih (hk.read hc) (fun d hd => hcs d (List.mem_cons_of_mem c hd)) (by omega)
    rw [List.flatMap_cons, List.append_assoc, List.append_assoc, List.singleton_append,
      resolveLoop_read hk hc (by rw [List.length_append]; omega)]
    exact hrest

theorem render_last (cs : List Component) (c : Component) :
    render (cs ++ [c]) = '/' :: (cs.flatMap (· ++ ['/']) ++ c) := by
  induction cs with
  | nil => simp
  | cons d cs ih =>
    rw [List.cons_append, render_cons, ih]
    simp

/-- `out` when the root is written. -/
def Kept.root : Kept := ⟨false, [], []⟩

theorem Kept.root_sound : Kept.root.Sound where
  named := by simp [Kept.root]
  open_part := List.not_mem_nil

/-- What `path_resolve` makes of an absolute path: its components read one after another. -/
theorem pathResolve_absolute (host : Host) {cs : List Component} {c : Component}
    (hcs : ∀ d ∈ cs ++ [c], Named d) (hroom : (render (cs ++ [c])).length < pathMax) :
    (cs.foldl read .root).Sound ∧
    pathResolve host (render (cs ++ [c])) =
      .ok (if ['.', '.'] <:+ c then ((cs ++ [c]).foldl read .root).body
        else ((cs.foldl read .root).extend c).text) := by
  have hlen : ¬ (render (cs ++ [c])).length > pathMax - 1 := by omega
  have hlocated : located host (render (cs ++ [c])) = .ok (render (cs ++ [c])) := by
    rw [render_last]
    rfl
  have hinit (parse : List Char) : resolveLoop ('/' :: parse) [] = resolveLoop parse root.text :=
    resolveLoop_slash (by decide)
  have hroot : Kept.root.text.length = 1 := rfl
  obtain ⟨hrun, hsound, hrest⟩ := @resolveLoop_run cs _ root_sound
    (fun d hd => hcs d (List.mem_append_left _ hd)) c
    (by rw [render_last, List.length_cons, List.length_append] at hroom; omega)
  refine ⟨hsound, ?_⟩
  rw [pathResolve, if_neg hlen, hlocated]
  change resolveLoop (render (cs ++ [c])) [] = _
  rw [render_last, hinit, hrun, resolveLoop_last hsound (hcs c (by simp)) hrest, List.foldl_concat]

end Paths
