import Chip32.Paths
import Chip32.Runs

/-!
# A path resolved twice

`main` resolves the path of its output a second time. What `path_resolve` writes for an
absolute path has nothing left in it that the loop takes for a component of dots, so the
second call gives back what it is given.
-/
namespace Paths

/-- The loop finds no dots at a character of `out` when `parse` stands behind it. -/
def Settled (out parse : List Char) : Prop :=
  ∀ s, s <:+ out → s ≠ [] → ¬ AtDots (s ++ parse)

/-- `out` is absolute, or nothing of the absolute path is written. -/
def Rooted (out parse : List Char) : Prop :=
  out.head? = some '/' ∨ out = [] ∧ (parse = [] ∨ parse.head? = some '/')

variable {out parse rest kept : List Char} {ch : Char}

theorem Settled.nil (parse : List Char) : Settled [] parse := by
  intro s hs hne
  exact absurd (List.suffix_nil.mp hs) hne

/-- A character that is no dot in front of the text it belongs to is copied. -/
theorem Settled.copy (hset : Settled out (ch :: parse)) (hdots : ¬ AtDots (ch :: parse)) :
    Settled (out ++ [ch]) parse := by
  intro s hs hne
  rcases List.eq_nil_or_concat s with rfl | ⟨t, d, rfl⟩
  · exact absurd rfl hne
  rw [List.concat_eq_append] at hs ⊢
  obtain ⟨front, hfront⟩ := hs
  rw [← List.append_assoc] at hfront
  obtain ⟨hout, hch⟩ := List.append_inj' hfront rfl
  cases hch
  rw [List.append_assoc, List.singleton_append]
  by_cases ht : t = []
  · rw [ht]
    exact hdots
  · exact hset t ⟨front, hout⟩ ht

/-- In front of a single dot and its slash `out` does not end in a dot. -/
theorem Settled.no_dot (hset : Settled out ('.' :: '/' :: parse)) : ¬ ['.'] <:+ out := by
  intro hdot
  exact hset ['.'] hdot (by simp) (.inr (.inr ⟨parse, rfl⟩))

/-- Dots that are found within a text are found whatever stands behind. -/
theorem AtDots.extend {s : List Char} (h : ['.', '/'] <+: s ∨ ['.', '.', '/'] <+: s)
    (parse : List Char) : AtDots (s ++ parse) := by
  cases h with
  | inl h => exact .inl (h.trans (List.prefix_append s parse))
  | inr h => exact .inr (.inr (h.trans (List.prefix_append s parse)))

/-- The dots are in `s` unless it ends with one of them. -/
theorem atDots_within {s : List Char} (hs : s ≠ []) (hdot : ¬ ['.'] <:+ s)
    (h : AtDots (s ++ parse)) : ['.', '/'] <+: s ∨ ['.', '.', '/'] <+: s := by
  cases s with
  | nil => exact absurd rfl hs
  | cons a s =>
    cases s with
    | nil =>
      have ha : a ≠ '.' := fun ha => hdot ⟨[], by rw [ha]; rfl⟩
      simp [AtDots, ha, ha.symm] at h
    | cons b s =>
      cases s with
      | nil =>
        have hb : b ≠ '.' := fun hb => hdot ⟨[a], by rw [hb]; rfl⟩
        simpa [AtDots, hb, hb.symm] using h
      | cons c s => simpa [AtDots] using h

/-- With a slash behind `s` they end there at the latest. -/
theorem atDots_slash {s : List Char} (hs : s ≠ []) (h : AtDots (s ++ '/' :: parse)) :
    ['.', '/'] <+: s ++ ['/'] ∨ ['.', '.', '/'] <+: s ++ ['/'] := by
  cases s with
  | nil => exact absurd rfl hs
  | cons a s =>
    cases s with
    | nil => simpa [AtDots] using h
    | cons b s => cases s <;> simpa [AtDots] using h

/-- A single dot that is skipped. -/
theorem Settled.skip (hset : Settled out ('.' :: '/' :: parse)) : Settled out parse := by
  intro s hs hne h
  have hdot : ¬ ['.'] <:+ s := fun hdot => hset.no_dot (hdot.trans hs)
  exact hset s hs hne (.extend (atDots_within hne hdot h) _)

/-- What is left of `out` in front of one of its slashes. -/
theorem Settled.cut (hset : Settled out rest) (hkept : ∃ name, out = kept ++ '/' :: name) :
    Settled kept [] ∧ Settled kept ('/' :: parse) := by
  obtain ⟨name, rfl⟩ := hkept
  have hwithin : ∀ s, s <:+ kept → s ≠ [] →
      ¬ (['.', '/'] <+: s ++ ['/'] ∨ ['.', '.', '/'] <+: s ++ ['/']) := by
    rintro s ⟨front, rfl⟩ hne h
    refine hset (s ++ '/' :: name) ⟨front, by simp⟩ (by simp) ?_
    have hext := AtDots.extend h (name ++ rest)
    simpa using hext
  constructor
  · intro s hs hne h
    refine hwithin s hs hne ?_
    rw [List.append_nil] at h
    rcases h with h | rfl | h
    · exact .inl (h.trans (List.prefix_append _ _))
    · exact .inr ⟨[], rfl⟩
    · exact .inr (h.trans (List.prefix_append _ _))
  · intro s hs hne h
    exact hwithin s hs hne (atDots_slash hne h)

theorem last_slash {path : List Char} (h : '/' ∈ path) :
    ∃ front name, path = front ++ '/' :: name ∧ '/' ∉ name := by
  induction path with
  | nil => cases h
  | cons ch path ih =>
    by_cases hpath : '/' ∈ path
    · obtain ⟨front, name, rfl, hname⟩ := ih hpath
      exact ⟨ch :: front, name, rfl, hname⟩
    · have hch : '/' = ch := (List.mem_cons.mp h).resolve_right hpath
      exact ⟨[], path, by rw [← hch]; rfl, hpath⟩

theorem cutBack_slash {path : List Char} (h : '/' ∈ path) :
    ∃ name, path = cutBack path ++ '/' :: name := by
  obtain ⟨front, name, rfl, hname⟩ := last_slash h
  exact ⟨name, by rw [cutBack_append hname]⟩

/-- An absolute path is cut in front of one of its slashes, or it is the root. -/
theorem pathKillBack_cut (habs : out.head? = some '/') (h : pathKillBack out = .ok kept) :
    kept = ['/'] ∨ ∃ name, out = kept ++ '/' :: name := by
  cases out with
  | nil => cases habs
  | cons ch out =>
    cases habs
    cases out with
    | nil =>
      cases h
      exact .inl rfl
    | cons d out =>
      right
      rw [pathKillBack, if_neg (by simp), if_neg (by simp)] at h
      cases h
      by_cases hlast : ('/' :: d :: out).getLast? = some '/'
      · rw [if_pos hlast]
        obtain ⟨name, hname⟩ := cutBack_slash (show '/' ∈ ('/' :: d :: out).dropLast by simp)
        obtain ⟨front, hfront⟩ := List.getLast?_eq_some_iff.mp hlast
        refine ⟨name ++ ['/'], ?_⟩
        rw [hfront, List.dropLast_concat] at hname ⊢
        conv_lhs => rw [hname]
        simp
      · rw [if_neg hlast]
        exact cutBack_slash (by simp)

theorem Rooted.absolute (hroot : Rooted out ('.' :: parse)) : out.head? = some '/' := by
  rcases hroot with habs | ⟨_, h | h⟩
  · exact habs
  · cases h
  · cases h

theorem settled_root (parse : List Char) : Settled ['/'] parse :=
  (Settled.nil _).copy (by simp [AtDots])

/-- What is left of an absolute path is settled again, at the end and in front of a slash. -/
theorem settled_killBack (parse : List Char) (hset : Settled out rest)
    (habs : out.head? = some '/') (h : pathKillBack out = .ok kept) :
    (kept = [] ∨ kept.head? = some '/') ∧ Settled kept [] ∧ Settled kept ('/' :: parse) := by
  rcases pathKillBack_cut habs h with rfl | ⟨name, rfl⟩
  · exact ⟨.inr rfl, settled_root _, settled_root _⟩
  · refine ⟨?_, hset.cut ⟨name, rfl⟩⟩
    cases kept with
    | nil => exact .inl rfl
    | cons ch kept => exact .inr habs

theorem terminated_eq {t : List Char} (h : terminated out = .ok t) :
    t = out ∧ out.length < pathMax := by
  rw [terminated] at h
  split at h
  case isTrue hroom =>
    cases h
    exact ⟨rfl, hroom⟩
  case isFalse => cases h

theorem Rooted.copy (hroot : Rooted out (ch :: parse)) : Rooted (out ++ [ch]) parse := by
  rcases hroot with habs | ⟨rfl, h | h⟩
  · exact .inl (by rw [List.head?_append, habs]; rfl)
  · cases h
  · exact .inl h

/-- What the loop writes of an absolute path. -/
theorem resolveLoop_settled {r : List Char} (hset : Settled out parse) (hroot : Rooted out parse)
    (h : resolveLoop parse out = .ok r) :
    Settled r [] ∧ (r = [] ∨ r.head? = some '/') ∧ r.length < pathMax := by
  induction parse, out using resolveLoop.induct with
  | case1 out =>
    rw [resolveLoop] at h
    obtain ⟨rfl, hroom⟩ := terminated_eq h
    exact ⟨hset, hroot.symm.imp And.left id, hroom⟩
  | case2 parse out ih =>
    rw [resolveLoop] at h
    exact ih hset.skip (.inl hroot.absolute) h
  | case3 out ih =>
    rw [resolveLoop] at h
    obtain ⟨t, ht, hbehind⟩ := Runs.bind_eq_ok.mp h
    obtain ⟨rfl, _⟩ := terminated_eq ht
    obtain ⟨kept, hkept, hloop⟩ := Runs.bind_eq_ok.mp hbehind
    obtain ⟨habs, hset, _⟩ := settled_killBack [] hset hroot.absolute hkept
    exact ih kept hset (habs.symm.imp id fun h => ⟨h, .inl rfl⟩) hloop
  | case4 parse out ih =>
    rw [resolveLoop] at h
    obtain ⟨t, ht, hbehind⟩ := Runs.bind_eq_ok.mp h
    obtain ⟨rfl, _⟩ := terminated_eq ht
    obtain ⟨kept, hkept, hloop⟩ := Runs.bind_eq_ok.mp hbehind
    obtain ⟨habs, _, hset⟩ := settled_killBack parse hset hroot.absolute hkept
    exact ih kept hset (habs.symm.imp id fun h => ⟨h, .inr rfl⟩) hloop
  | case5 ch parse out hdot hup hslash hroom ih =>
    have hdots : ¬ AtDots (ch :: parse) := by
      rintro (⟨_, h⟩ | h | ⟨_, h⟩)
      · cases h
        exact hdot _ rfl rfl
      · cases h
        exact hup rfl rfl
      · cases h
        exact hslash _ rfl rfl
    rw [resolveLoop_char hdots hroom] at h
    exact ih (hset.copy hdots) hroot.copy h
  | case6 ch parse out hdot hup hslash hroom =>
    rw [resolveLoop] at h
    · rw [if_neg hroom] at h
      cases h
    all_goals assumption

/-- A settled text is copied. -/
theorem resolveLoop_self {text : List Char} (hset : Settled text []) :
    ∀ {out : List Char}, out.length + text.length < pathMax →
      resolveLoop text out = .ok (out ++ text) := by
  induction text with
  | nil =>
    intro out hroom
    rw [resolveLoop, terminated_ok hroom, List.append_nil]
  | cons ch text ih =>
    intro out hroom
    rw [List.length_cons] at hroom
    have hdots : ¬ AtDots (ch :: text) := by
      have := hset (ch :: text) (List.suffix_refl _) (by simp)
      rwa [List.append_nil] at this
    have hrest : Settled text [] := fun s hs => hset s (hs.trans (List.suffix_cons ch text))
    rw [resolveLoop_char hdots (by omega), ih hrest (by simp; omega)]
    simp

/-- A path that was made absolute and resolved is resolved to itself. -/
theorem pathResolve_twice (host : Host) (path cur r : List Char)
    (hcur : located host path = .ok ('/' :: cur)) (h : pathResolve host path = .ok r) :
    pathResolve host r = .ok r := by
  rw [pathResolve] at h
  split at h
  · cases h
  · obtain ⟨t, ht, h⟩ := Runs.bind_eq_ok.mp h
    cases hcur.symm.trans ht
    obtain ⟨hset, habs, hroom⟩ := resolveLoop_settled (.nil _) (.inr ⟨rfl, .inr rfl⟩) h
    have hlocated : located host r = .ok r := by
      cases r with
      | nil => rfl
      | cons ch r =>
        obtain rfl : ch = '/' := by simpa using habs
        simp [located, startsWith]
    rw [pathResolve, if_neg (by rw [pathMax] at *; omega), hlocated]
    exact resolveLoop_self hset (by simpa using hroom)

theorem pathResolve_twice_up :
    pathResolve ⟨.ok [], .ok []⟩ ['/', 'a', '/', '.', '.', '/', 'b'] = .ok ['/', 'b'] ∧
      pathResolve ⟨.ok [], .ok []⟩ ['/', 'b'] = .ok ['/', 'b'] :=
  ⟨by decide, pathResolve_twice ⟨.ok [], .ok []⟩ ['/', 'a', '/', '.', '.', '/', 'b']
    ['a', '/', '.', '.', '/', 'b'] ['/', 'b'] (by decide) (by decide)⟩

/-- A relative path may change again. -/
example : pathResolve ⟨.ok [], .ok []⟩ ['a', '.', '.', '.', '/', 'x'] =
      .ok ['a', '.', '/', 'x'] ∧
    pathResolve ⟨.ok [], .ok []⟩ ['a', '.', '/', 'x'] = .ok ['a', 'x'] := by decide

end Paths
