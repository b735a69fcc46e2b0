import Mathlib.Data.List.Induction
import Chip32.Paths

/-!
# A path and what it names

Lexically a `.` is no step and a `..` takes back the name in front of it, the root being
its own parent. `path_resolve` misreads two kinds of names: one that ends in two dots, and
one that ends in a dot when a name follows. What it makes of a path names the same path
when every misread name is taken back later, with all that is in front of it, and the root
is not cut away at the end.
-/
namespace Paths

open Kept

/-- One component of a path on the names so far. -/
def enter (names : List Component) (c : Component) : List Component :=
  if c = ['.'] then names else if c = ['.', '.'] then names.dropLast else names ++ [c]

/-- The names left of a path: the root for no name. -/
def normal (cs : List Component) : List Component := cs.foldl enter []

/-- The components of a text, without the empty ones and the dots. -/
def names (path : List Char) : List Component :=
  (path.splitOn '/').filter fun c => c ≠ [] && c ≠ ['.']

/-- The text is an absolute path to these names. -/
def SamePath (path : List Char) (cs : List Component) : Prop :=
  path.head? = some '/' ∧ names path = cs

instance (path : List Char) (cs : List Component) : Decidable (SamePath path cs) :=
  inferInstanceAs (Decidable (_ ∧ _))

/-- A name that ends in two dots. -/
def EndsUp (c : Component) : Prop := ['.', '.'] <:+ c ∧ c ≠ ['.', '.']

/-- A name that ends in a single dot. -/
def EndsDot (c : Component) : Prop := ['.'] <:+ c ∧ ¬ ['.', '.'] <:+ c ∧ c ≠ ['.']

instance (c : Component) : Decidable (EndsUp c) := inferInstanceAs (Decidable (_ ∧ _))

instance (c : Component) : Decidable (EndsDot c) := inferInstanceAs (Decidable (_ ∧ _))

/-- The dots at the end of `c` are taken for a component of their own: two dots always,
a single one when another name follows. -/
def Misread (c : Component) (rest : List Component) : Prop :=
  EndsUp c ∨ (EndsDot c ∧ ∃ d ∈ rest.head?, d ≠ ['.', '.'])

instance (c : Component) (rest : List Component) : Decidable (Misread c rest) :=
  inferInstanceAs (Decidable (_ ∨ _))

/-- Behind every misread name there is a point where the path is back at the root. -/
def TakenBack (cs : List Component) : Prop :=
  ∀ front c rest, cs = front ++ c :: rest → Misread c rest →
    ∃ mid, mid <+: rest ∧ normal (front ++ c :: mid) = []

/-- The number of components that are not misread. -/
def wellRead : List Component → Nat
  | [] => 0
  | c :: rest => (if Misread c rest then 0 else 1) + wellRead rest

/-- The components that are not the dot. -/
def steps (cs : List Component) : List Component := cs.filter (· ≠ ['.'])

theorem enter_name {c : Component} (hdot : c ≠ ['.']) (hup : c ≠ ['.', '.'])
    (names : List Component) : enter names c = names ++ [c] := by
  rw [enter, if_neg hdot, if_neg hup]

theorem enter_up (names : List Component) : enter names ['.', '.'] = names.dropLast := by
  rw [enter, if_neg (by decide), if_pos rfl]

theorem normal_concat (cs : List Component) (c : Component) :
    normal (cs ++ [c]) = enter (normal cs) c := by
  rw [normal, List.foldl_concat, normal]

theorem foldl_steps {α : Type} (f : α → Component → α) (hf : ∀ a, f a ['.'] = a)
    (cs : List Component) (a : α) : (steps cs).foldl f a = cs.foldl f a := by
  induction cs generalizing a with
  | nil => rfl
  | cons c cs ih =>
    by_cases hc : c = ['.']
    · rw [steps, List.filter_cons_of_neg (by simp [hc]), hc, List.foldl_cons, hf]
      exact ih a
    · rw [steps, List.filter_cons_of_pos (by simp [hc]), List.foldl_cons, List.foldl_cons]
      exact ih (f a c)

theorem normal_steps (cs : List Component) : normal (steps cs) = normal cs :=
  foldl_steps enter (fun _ => if_pos rfl) cs []

theorem read_steps (cs : List Component) (k : Kept) :
    (steps cs).foldl read k = cs.foldl read k :=
  foldl_steps read (fun k => (k.read_dot (w := []) rfl (by simp)).trans k.extend_nil) cs k

theorem splitOn_render {cs : List Component} (hcs : ∀ c ∈ cs, '/' ∉ c) (front : List Char) :
    (front ++ render cs).splitOn '/' = front.splitOn '/' ++ cs := by
  induction cs generalizing front with
  | nil => simp
  | cons c cs ih =>
    rw [render_cons, List.splitOn_append_cons_self,
      ih fun d hd => hcs d (List.mem_cons_of_mem c hd),
      List.splitOn_eq_singleton (hcs c List.mem_cons_self), List.singleton_append]

theorem names_render {extra : Bool} {cs : List Component} (hcs : ∀ c ∈ cs, '/' ∉ c) :
    names (List.replicate extra.toNat '/' ++ render cs) =
      cs.filter fun c => c ≠ [] && c ≠ ['.'] := by
  rw [names, splitOn_render hcs]
  have hroot : ['/'].splitOn '/' = [[], []] := by decide
  cases extra <;> simp [hroot]

/-- The last name so far becomes misread when `c` follows. -/
def Caught (cs : List Component) (c : Component) : Prop :=
  ∃ d ∈ cs.getLast?, EndsDot d ∧ c ≠ ['.', '.']

theorem Misread.concat {d : Component} {rest : List Component} (h : Misread d rest)
    (c : Component) : Misread d (rest ++ [c]) := by
  rcases h with hup | ⟨hdot, e, he, hne⟩
  · exact .inl hup
  · refine .inr ⟨hdot, e, ?_, hne⟩
    cases rest with
    | nil => cases he
    | cons _ _ => exact he

theorem Misread.of_concat {d c : Component} {rest : List Component}
    (h : Misread d (rest ++ [c])) :
    Misread d rest ∨ (rest = [] ∧ EndsDot d ∧ c ≠ ['.', '.']) := by
  rcases h with hup | ⟨hdot, e, he, hne⟩
  · exact .inl (.inl hup)
  · cases rest with
    | nil =>
      cases he
      exact .inr ⟨rfl, hdot, hne⟩
    | cons _ _ => exact .inl (.inr ⟨hdot, e, he, hne⟩)

theorem normal_endsDot_ne_nil {cs : List Component} {d : Component} (hd : EndsDot d) :
    normal (cs ++ [d]) ≠ [] := by
  have hup : d ≠ ['.', '.'] := fun h => hd.2.1 (h ▸ List.suffix_refl _)
  rw [normal_concat, enter_name hd.2.2 hup]
  simp

theorem takenBack_root {cs : List Component} (hroot : normal cs = []) : TakenBack cs :=
  fun _ _ rest hsplit _ => ⟨rest, List.prefix_refl rest, hsplit ▸ hroot⟩

theorem TakenBack.concat {cs : List Component} (h : TakenBack cs) {c : Component}
    (hup : ¬ EndsUp c) (hcaught : ¬ Caught cs c) : TakenBack (cs ++ [c]) := by
  intro front d rest hsplit hmis
  rcases List.eq_nil_or_concat rest with rfl | ⟨rest, e, rfl⟩
  · obtain ⟨-, rfl⟩ := List.append_singleton_inj.mp hsplit
    rcases hmis with h | ⟨-, e, he, -⟩
    · exact absurd h hup
    · cases he
  · rw [List.concat_eq_append] at hsplit hmis ⊢
    rw [← List.cons_append, ← List.append_assoc] at hsplit
    obtain ⟨rfl, rfl⟩ := List.append_singleton_inj.mp hsplit
    rcases hmis.of_concat with hmis | ⟨rfl, hdot, hne⟩
    · obtain ⟨mid, hmid, hroot⟩ := h front d rest rfl hmis
      exact ⟨mid, hmid.trans (List.prefix_append rest _), hroot⟩
    · exact absurd ⟨d, by simp, hdot, hne⟩ hcaught

section

variable {cs : List Component} {c : Component} (h : TakenBack (cs ++ [c]))
  (hn : normal (cs ++ [c]) ≠ [])
include h hn

theorem TakenBack.of_concat : TakenBack cs := by
  intro front d rest hsplit hmis
  obtain ⟨mid, hmid, hroot⟩ := h front d (rest ++ [c]) (by simp [hsplit]) (hmis.concat c)
  rcases List.prefix_concat_iff.mp hmid with rfl | hmid
  · exact absurd (by simpa [hsplit] using hroot) hn
  · exact ⟨mid, hmid, hroot⟩

theorem TakenBack.not_endsUp : ¬ EndsUp c := by
  intro hup
  obtain ⟨mid, hmid, hroot⟩ := h cs c [] rfl (.inl hup)
  rw [List.prefix_nil.mp hmid] at hroot
  exact hn hroot

theorem TakenBack.not_caught : ¬ Caught cs c := by
  intro ⟨d, hd, hdot, hne⟩
  obtain ⟨front, rfl⟩ := List.getLast?_eq_some_iff.mp hd
  obtain ⟨mid, hmid, hroot⟩ := h front d [c] (by simp) (.inr ⟨hdot, c, rfl, hne⟩)
  rcases List.prefix_concat_iff.mp (show mid <+: [] ++ [c] from hmid) with rfl | hmid
  · exact hn (by simpa using hroot)
  · rw [List.prefix_nil.mp hmid] at hroot
    exact normal_endsDot_ne_nil hdot hroot

end

/-- One component more: it is back at the root, or nothing in front of it was to be taken
back and neither it nor the name before it is misread. -/
theorem takenBack_concat (cs : List Component) (c : Component) :
    TakenBack (cs ++ [c]) ↔
      normal (cs ++ [c]) = [] ∨ (TakenBack cs ∧ ¬ EndsUp c ∧ ¬ Caught cs c) := by
  constructor
  · intro h
    by_cases hn : normal (cs ++ [c]) = []
    · exact .inl hn
    · exact .inr ⟨h.of_concat hn, h.not_endsUp hn, h.not_caught hn⟩
  · intro h
    cases h with
    | inl hroot => exact takenBack_root hroot
    | inr h => exact h.1.concat h.2.1 h.2.2

instance (cs : List Component) (c : Component) : Decidable (Caught cs c) :=
  inferInstanceAs (Decidable (∃ d ∈ cs.getLast?, _))

theorem wellRead_concat (cs : List Component) (c : Component) :
    wellRead (cs ++ [c]) + (if Caught cs c then 1 else 0) =
      wellRead cs + (if EndsUp c then 0 else 1) := by
  induction cs with
  | nil => simp [wellRead, Misread, Caught]
  | cons d cs ih =>
    cases cs with
    | nil =>
      have hexcl : EndsDot d → ¬ EndsUp d := fun hdot hup => hdot.2.1 hup.1
      by_cases hdot : EndsDot d
      · have hup := hexcl hdot
        by_cases hc : c = ['.', '.']
        · simp [wellRead, Misread, Caught, hdot, hup, hc]
        · simp [wellRead, Misread, Caught, hdot, hup, hc, Nat.add_comm]
      · simp [wellRead, Misread, Caught, hdot]
    | cons e cs =>
      have hcaught : Caught (d :: e :: cs) c ↔ Caught (e :: cs) c := by
        rw [Caught, Caught, List.getLast?_cons_cons]
      have hread : wellRead (d :: e :: cs ++ [c]) =
          (if Misread d (e :: cs) then 0 else 1) + wellRead (e :: cs ++ [c]) := rfl
      rw [hread, wellRead]
      simp only [hcaught]
      omega

theorem extend_listed (k : Kept) {w : List Char} (hw : w ≠ []) :
    (k.extend w).listed = k.names ++ [k.part ++ w ++ ['.']] := by
  simp [listed, hw]

theorem close_listed (k : Kept) (c : Component) :
    (k.close c).listed = k.names ++ [k.part ++ c] := by
  simp [listed, close]

theorem read_dots (k : Kept) : k.read ['.', '.'] = k.pop :=
  (k.read_up (List.nil_append _).symm).trans (congrArg Kept.pop k.extend_nil)

/-- A name that ends in two dots takes itself and the open part away. -/
theorem read_endsUp (k : Kept) {c : Component} (hc : EndsUp c) :
    (k.read c).listed = k.names ∧ (k.read c).extra = k.extra := by
  obtain ⟨⟨w, hw⟩, hne⟩ := hc
  have hpart : (k.extend w).part ≠ [] := by
    intro h
    have hnil : w = [] := (List.append_eq_nil_iff.mp h).2
    exact hne (by rw [← hw, hnil, List.nil_append])
  rw [k.read_up hw.symm, pop_open hpart]
  simp [listed]

/-- Any other name is added to the open part. -/
theorem read_other (k : Kept) {c : Component} (hdot : c ≠ ['.']) (hup : ¬ ['.', '.'] <:+ c) :
    (k.read c).listed = k.names ++ [k.part ++ c] ∧ (k.read c).extra = k.extra := by
  rcases component_cases c with hc | ⟨w, rfl, hend⟩ | hend
  · obtain ⟨w, rfl⟩ := hc
    exact absurd (List.suffix_append w _) hup
  · have hw : w ≠ [] := fun h => hdot (by rw [h, List.nil_append])
    rw [k.read_dot rfl hend, extend_listed k hw]
    simp
  · rw [k.read_name hend, close_listed]
    exact ⟨rfl, rfl⟩

theorem read_part (k : Kept) {c : Component} (hdot : c ≠ ['.']) :
    (k.read c).part ≠ [] ↔ EndsDot c := by
  rcases component_cases c with ⟨w, rfl⟩ | ⟨w, rfl, hend⟩ | hend
  · rw [k.read_up rfl, pop_part]
    exact ⟨fun h => absurd rfl h, fun h => absurd (List.suffix_append w _) h.2.1⟩
  · have hw : w ≠ [] := fun h => hdot (by rw [h, List.nil_append])
    rw [k.read_dot rfl hend]
    exact ⟨fun _ => ⟨List.suffix_append w _, not_up_of_dot hend, hdot⟩, fun _ => by simp [hw]⟩
  · rw [k.read_name hend]
    exact ⟨fun h => absurd rfl h, fun h => absurd h.1 hend⟩

/-- What the components so far have left of a path. -/
structure Tracks (cs : List Component) (k : Kept) : Prop where
  sound : k.Sound
  held : k.part ≠ [] ↔ ∃ d ∈ cs.getLast?, EndsDot d
  parity : (k.extra.toNat + k.listed.length) % 2 = wellRead cs % 2
  taken : TakenBack cs → k.listed = normal cs
  behind : ¬ TakenBack cs → k.listed.length < (normal cs).length

theorem Tracks.root : Tracks [] Kept.root where
  sound := root_sound
  held := by simp [Kept.root]
  parity := rfl
  taken _ := rfl
  behind h := absurd (takenBack_root rfl) h

theorem Tracks.caught {cs : List Component} {k : Kept} (h : Tracks cs k) (c : Component) :
    Caught cs c ↔ k.part ≠ [] ∧ c ≠ ['.', '.'] := by
  rw [h.held, Caught]
  constructor
  · exact fun ⟨d, hd, hdot, hne⟩ => ⟨⟨d, hd, hdot⟩, hne⟩
  · exact fun ⟨⟨d, hd, hdot⟩, hne⟩ => ⟨d, hd, hdot, hne⟩

theorem Tracks.length_le {cs : List Component} {k : Kept} (h : Tracks cs k) :
    k.listed.length ≤ (normal cs).length := by
  by_cases ht : TakenBack cs
  · exact Nat.le_of_eq (congrArg List.length (h.taken ht))
  · exact Nat.le_of_lt (h.behind ht)

/-- Every component that is not misread changes the number of names by one, or the slash
in front. -/
theorem read_parity (k : Kept) {c : Component} (hdot : c ≠ ['.']) :
    ((k.read c).extra.toNat + (k.read c).listed.length +
        (if k.part ≠ [] ∧ c ≠ ['.', '.'] then 1 else 0)) % 2 =
      (k.extra.toNat + k.listed.length + (if EndsUp c then 0 else 1)) % 2 := by
  have hlisted : k.listed.length = k.names.length + if k.part = [] then 0 else 1 := by
    rw [listed, List.length_append]
    split <;> rfl
  by_cases hdots : c = ['.', '.']
  · have hup : ¬ EndsUp c := fun h => h.2 hdots
    simp only [hdots, read_dots] at hup ⊢
    simpa [hup] using pop_parity k
  · by_cases hup : EndsUp c
    · obtain ⟨hread, hextra⟩ := read_endsUp k hup
      rw [hread, hextra, hlisted]
      by_cases hpart : k.part = []
      · simp [hpart, hup, hdots]
      · simp [hpart, hup, hdots]
        omega
    · obtain ⟨hread, hextra⟩ := read_other k hdot fun h => hup ⟨h, hdots⟩
      rw [hread, hextra, hlisted]
      by_cases hpart : k.part = []
      · simp [hpart, hup, hdots]
        omega
      · simp [hpart, hup, hdots]

theorem Tracks.read_dots {cs : List Component} {k : Kept} (h : Tracks cs k) :
    (TakenBack (cs ++ [['.', '.']]) → (k.read ['.', '.']).listed = normal (cs ++ [['.', '.']])) ∧
    (¬ TakenBack (cs ++ [['.', '.']]) →
      (k.read ['.', '.']).listed.length < (normal (cs ++ [['.', '.']])).length) := by
  have hconcat := takenBack_concat cs ['.', '.']
  have hup : ¬ EndsUp ['.', '.'] := fun h => h.2 rfl
  have hcaught : ¬ Caught cs ['.', '.'] := fun ⟨_, _, _, hne⟩ => hne rfl
  rw [normal_concat, enter_up] at hconcat ⊢
  rw [Paths.read_dots, pop_listed]
  by_cases ht : TakenBack cs
  · have htaken := hconcat.mpr (.inr ⟨ht, hup, hcaught⟩)
    exact ⟨fun _ => by rw [h.taken ht], fun hn => absurd htaken hn⟩
  · have hlt := h.behind ht
    constructor
    · intro htaken
      have hroot := (hconcat.mp htaken).resolve_right fun h => ht h.1
      have hlen := congrArg List.length hroot
      rw [List.length_dropLast, List.length_nil] at hlen
      rw [hroot, List.eq_nil_of_length_eq_zero (by omega : k.listed.length = 0)]
      rfl
    · intro hn
      have hroot : (normal cs).dropLast ≠ [] := fun h => hn (hconcat.mpr (.inl h))
      have hlen := List.length_pos_iff.mpr hroot
      simp only [List.length_dropLast] at hlen ⊢
      omega

theorem Tracks.read_name {cs : List Component} {k : Kept} (h : Tracks cs k) {c : Component}
    (hdot : c ≠ ['.']) (hdots : c ≠ ['.', '.']) :
    (TakenBack (cs ++ [c]) → (k.read c).listed = normal (cs ++ [c])) ∧
    (¬ TakenBack (cs ++ [c]) → (k.read c).listed.length < (normal (cs ++ [c])).length) := by
  have hconcat := takenBack_concat cs c
  have hnames : k.names.length ≤ k.listed.length := by simp [listed]
  have hle := h.length_le
  rw [normal_concat, enter_name hdot hdots] at hconcat ⊢
  by_cases hup : EndsUp c
  · have hlost : ¬ TakenBack (cs ++ [c]) := by simp [hconcat, hup]
    rw [(read_endsUp k hup).1]
    exact ⟨fun ht => absurd ht hlost, fun _ => by simp; omega⟩
  · rw [(read_other k hdot fun h => hup ⟨h, hdots⟩).1]
    by_cases hpart : k.part = []
    · have hlisted : k.listed = k.names := by simp [listed, hpart]
      have htaken : TakenBack (cs ++ [c]) ↔ TakenBack cs := by
        simp [hconcat, hup, h.caught, hpart]
      rw [htaken, hpart, List.nil_append, ← hlisted]
      exact ⟨fun ht => by rw [h.taken ht], fun ht => by simpa using h.behind ht⟩
    · have hlost : ¬ TakenBack (cs ++ [c]) := by simp [hconcat, h.caught, hpart, hdots]
      have hlisted : k.listed.length = k.names.length + 1 := by simp [listed, hpart]
      exact ⟨fun ht => absurd ht hlost, fun _ => by simp; omega⟩

theorem Tracks.read {cs : List Component} {k : Kept} (h : Tracks cs k) {c : Component}
    (hc : Named c) (hdot : c ≠ ['.']) : Tracks (cs ++ [c]) (k.read c) := by
  have hnames : (TakenBack (cs ++ [c]) → (k.read c).listed = normal (cs ++ [c])) ∧
      (¬ TakenBack (cs ++ [c]) → (k.read c).listed.length < (normal (cs ++ [c])).length) := by
    by_cases hdots : c = ['.', '.']
    · subst hdots
      exact h.read_dots
    · exact h.read_name hdot hdots
  refine ⟨h.sound.read hc, ?_, ?_, hnames.1, hnames.2⟩
  · rw [read_part k hdot]
    simp
  · have hread := read_parity k hdot
    have hcount := wellRead_concat cs c
    simp only [h.caught] at hcount
    have := h.parity
    omega

/-- A path without dots, read one component after another. -/
theorem Tracks.run {cs : List Component} (hcs : ∀ c ∈ cs, Named c ∧ c ≠ ['.']) :
    Tracks cs (cs.foldl Kept.read .root) := by
  induction cs using List.reverseRecOn with
  | nil => exact .root
  | append_singleton cs c ih =>
    obtain ⟨hc, hdot⟩ := hcs c (by simp)
    rw [List.foldl_concat]
    exact (ih fun d hd => hcs d (List.mem_append_left _ hd)).read hc hdot

theorem Tracks.listed_iff {cs : List Component} {k : Kept} (h : Tracks cs k) :
    k.listed = normal cs ↔ TakenBack cs := by
  constructor
  · intro heq
    by_contra hlost
    exact absurd (congrArg List.length heq) (Nat.ne_of_lt (h.behind hlost))
  · exact h.taken

theorem filter_names {k : Kept} (hk : k.Sound) :
    (k.names.filter fun c => c ≠ [] && c ≠ ['.']) = k.names := by
  rw [List.filter_eq_self]
  intro name hname
  simp [(hk.named name hname).1.1, (hk.named name hname).2]

theorem names_body {k : Kept} (hk : k.Sound) (hpart : k.part = []) :
    names k.body = k.listed := by
  rw [body, names_render fun name hname => (hk.named name hname).1.2, filter_names hk, listed,
    if_pos hpart, List.append_nil]

theorem names_text {k : Kept} (hk : k.Sound) {c : Component} (hc : Named c)
    (hup : ¬ ['.', '.'] <:+ c) : names (k.extend c).text = (k.read c).listed := by
  have htext : (k.extend c).text =
      List.replicate k.extra.toNat '/' ++ render (k.names ++ [k.part ++ c]) := by
    simp [text, body]
  have hslash : ∀ name ∈ k.names ++ [k.part ++ c], '/' ∉ name := by
    intro name hname
    rcases List.mem_append.mp hname with h | h
    · exact (hk.named name h).1.2
    · rw [List.mem_singleton.mp h]
      exact fun h => (List.mem_append.mp h).elim hk.open_part hc.2
  rw [htext, names_render hslash, List.filter_append, filter_names hk]
  by_cases hdot : c = ['.']
  · rw [hdot, k.read_dot (List.nil_append _).symm (by simp), k.extend_nil, listed]
    by_cases hpart : k.part = [] <;> simp [hpart]
  · rw [(read_other k hdot hup).1]
    have hvisible : k.part ++ c ≠ [] ∧ k.part ++ c ≠ ['.'] := by
      refine ⟨fun h => hc.1 (List.append_eq_nil_iff.mp h).2, fun h => ?_⟩
      rcases List.append_eq_singleton_iff.mp h with ⟨-, h⟩ | ⟨-, h⟩
      · exact hdot h
      · exact hc.1 h
    simp [hvisible]

theorem body_head (k : Kept) : k.body.head? = some '/' ↔ k.extra = true ∨ k.names ≠ [] := by
  cases hextra : k.extra
  · cases hnames : k.names <;> simp [body, hextra, hnames]
  · simp [body, hextra]

/-- After a `..` the root is left as long as a name or a slash too many is. -/
theorem Tracks.head_iff {cs : List Component} {k : Kept} (h : Tracks cs k) (ht : TakenBack cs)
    (hpart : k.part = []) :
    k.body.head? = some '/' ↔ (normal cs = [] → wellRead cs % 2 = 1) := by
  have hnames : k.names = normal cs := by
    rw [← h.taken ht, listed, if_pos hpart, List.append_nil]
  have hparity := h.parity
  rw [h.taken ht] at hparity
  rw [body_head, hnames]
  by_cases hroot : normal cs = []
  · rw [hroot, List.length_nil] at hparity
    rw [← hparity]
    cases hextra : k.extra <;> simp [hroot]
  · simp [hroot]

/-- Nothing takes a misread last name back. -/
theorem not_takenBack_endsUp {cs : List Component} {c : Component} (hc : EndsUp c) :
    ¬ TakenBack (steps (cs ++ [c])) := by
  have hdot : c ≠ ['.'] := fun h => absurd (h ▸ hc.1) (by decide)
  have hsteps : steps (cs ++ [c]) = steps cs ++ [c] := by simp [steps, hdot]
  rw [hsteps, takenBack_concat, normal_concat, enter_name hdot hc.2]
  simp [hc]

/-- `path_resolve` names the path it was given. -/
def Normalises (host : Host) (cs : List Component) : Prop :=
  ∃ result, pathResolve host (render cs) = .ok result ∧ SamePath result (normal cs)

theorem normalises_iff (host : Host) (cs : List Component) (hne : cs ≠ [])
    (hcs : ∀ c ∈ cs, Named c) (hroom : (render cs).length < pathMax) :
    Normalises host cs ↔
      TakenBack (steps cs) ∧
        (cs.getLast? = some ['.', '.'] → normal cs = [] → wellRead (steps cs) % 2 = 1) := by
  obtain ⟨front, c, rfl⟩ := (List.eq_nil_or_concat cs).resolve_left hne
  rw [List.concat_eq_append] at hcs hroom ⊢
  obtain ⟨hsound, hresult⟩ := pathResolve_absolute host hcs hroom
  have hc : Named c := hcs c (by simp)
  have hfold : (front ++ [c]).foldl Kept.read .root = (front.foldl Kept.read .root).read c :=
    List.foldl_concat ..
  have htracks : Tracks (steps (front ++ [c])) ((front.foldl Kept.read .root).read c) := by
    rw [← hfold, ← read_steps]
    exact Tracks.run fun d hd => ⟨hcs d (List.mem_filter.mp hd).1, by
      simpa using (List.mem_filter.mp hd).2⟩
  generalize front.foldl Kept.read .root = k at hsound hresult hfold htracks
  rw [hfold] at hresult
  have hsame {result : List Char} (hnames : names result = (k.read c).listed) :
      SamePath result (normal (front ++ [c])) ↔
        result.head? = some '/' ∧ TakenBack (steps (front ++ [c])) := by
    rw [SamePath, hnames, ← normal_steps, htracks.listed_iff]
  have hresult_iff : Normalises host (front ++ [c]) ↔ SamePath
      (if ['.', '.'] <:+ c then (k.read c).body else (k.extend c).text)
      (normal (front ++ [c])) := by
    rw [Normalises, hresult]
    exact ⟨fun ⟨_, h, hs⟩ => Except.ok.inj h ▸ hs, fun hs => ⟨_, rfl, hs⟩⟩
  rw [hresult_iff, List.getLast?_concat]
  by_cases hup : ['.', '.'] <:+ c
  · have hpart : (k.read c).part = [] := by
      obtain ⟨w, hw⟩ := hup
      rw [k.read_up hw.symm, pop_part]
    rw [if_pos hup, hsame (names_body htracks.sound hpart), and_comm]
    refine and_congr_right fun ht => ?_
    have hdots : c = ['.', '.'] := by
      by_contra hne
      exact not_takenBack_endsUp ⟨hup, hne⟩ ht
    rw [htracks.head_iff ht hpart, normal_steps]
    exact ⟨fun h _ => h, fun h => h (congrArg some hdots)⟩
  · have hdots : c ≠ ['.', '.'] := fun h => hup (h ▸ List.suffix_refl _)
    have hhead : (k.extend c).text.head? = some '/' := by
      cases hextra : k.extra <;> cases hnames : k.names <;> simp [text, body, hextra, hnames]
    rw [if_neg hup, hsame (names_text hsound hc hup)]
    exact ⟨fun h => ⟨h.2, fun heq => absurd (Option.some.inj heq) hdots⟩,
      fun h => ⟨hhead, h.1⟩⟩

/-- `/a/../b`. -/
theorem normalises_iff_up :
    Normalises ⟨.error [], .error []⟩ [['a'], ['.', '.'], ['b']] ↔
      TakenBack (steps [['a'], ['.', '.'], ['b']]) ∧
        ([['a'], ['.', '.'], ['b']].getLast? = some ['.', '.'] →
          normal [['a'], ['.', '.'], ['b']] = [] →
            wellRead (steps [['a'], ['.', '.'], ['b']]) % 2 = 1) :=
  normalises_iff _ _ (by decide) (by decide) (by decide)

/-- Of `/a./b` the scan makes `/ab`. -/
theorem path_joins_names :
    pathResolve ⟨.error [], .error []⟩ (render [['a', '.'], ['b']]) = .ok ['/', 'a', 'b'] ∧
      ¬ ∀ (host : Host) (cs : List Component), cs ≠ [] → (∀ c ∈ cs, Named c) →
        (render cs).length < pathMax → Normalises host cs := by
  refine ⟨rfl, fun h => ?_⟩
  obtain ⟨result, hresult, hsame⟩ :=
    h ⟨.error [], .error []⟩ [['a', '.'], ['b']] (by decide) (by decide) (by decide)
  have heq : result = ['/', 'a', 'b'] := (Except.ok.inj hresult).symm
  rw [heq] at hsame
  exact absurd hsame (by decide)

end Paths
