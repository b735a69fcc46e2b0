import Mathlib.Logic.Basic
import Mathlib.Logic.Function.Iterate

/-!
# Finite runs of a fallible step function

A step either yields the next state or fails with an error. The first half is
about runs over a list of inputs, the second about a loop whose body either
goes on or leaves. Nothing here knows what a state is.
-/
namespace Runs

variable {σ τ α ε : Type}

@[simp] theorem ok_bind {β : Type} (a : α) (f : α → Except ε β) :
    (Except.ok a >>= f) = f a := rfl

@[simp] theorem error_bind {β : Type} (e : ε) (f : α → Except ε β) :
    ((Except.error e : Except ε α) >>= f) = .error e := rfl

@[simp] theorem pure_ok (a : α) : (pure a : Except ε α) = .ok a := rfl

@[simp] theorem map_ok {β : Type} (f : α → β) (a : α) :
    (Except.ok a : Except ε α).map f = .ok (f a) := rfl

@[simp] theorem map_error {β : Type} (f : α → β) (e : ε) :
    (Except.error e : Except ε α).map f = .error e := rfl

/-- Every successful sequence of two computations splits at its middle value. -/
theorem bind_eq_ok {β : Type} {x : Except ε α} {f : α → Except ε β} {b : β} :
    (x >>= f) = .ok b ↔ ∃ a, x = .ok a ∧ f a = .ok b := by
  cases x <;> simp

/-- Two computations in step: the second has the result of the first under `g`, and
what comes behind keeps it so. -/
theorem bind_of_map {α' β β' : Type} {x : Except ε α} {x' : Except ε α'} {g : α → α'}
    {f : α → Except ε β} {f' : α' → Except ε β'} {k : β → β'} (hx : x' = x.map g)
    (hf : ∀ a, f' (g a) = (f a).map k) : x' >>= f' = (x >>= f).map k := by
  subst hx
  cases x with
  | error e => rfl
  | ok a => exact hf a

theorem bind_of_same {β β' : Type} {x : Except ε α} {f : α → Except ε β} {f' : α → Except ε β'}
    {k : β → β'} (hf : ∀ a, f' a = (f a).map k) : x >>= f' = (x >>= f).map k :=
  bind_of_map (Except.map_id ▸ rfl) hf

/-- A result and an error both in other terms. -/
def mapBoth {β ε' : Type} (g : ε → ε') (f : α → β) : Except ε α → Except ε' β
  | .error e => .error (g e)
  | .ok a => .ok (f a)

/-- Two computations that agree up to what `mapBoth` changes, one after the other. -/
theorem mapBoth_bind {α' β β' ε' : Type} {g : ε → ε'} {f : α → α'} {k : β → β'} {x : Except ε α}
    {h : α → Except ε β} {h' : α' → Except ε' β'} (hh : ∀ a, h' (f a) = mapBoth g k (h a)) :
    mapBoth g f x >>= h' = mapBoth g k (x >>= h) := by
  cases x with
  | error e => rfl
  | ok a => exact hh a

theorem ok_of_toOption {x : Except ε α} {a : α} (h : x.toOption = some a) : x = .ok a := by
  cases x with
  | error e => cases h
  | ok b => cases h; rfl

/-- What fails with `e` fails first, or goes on and then fails with it. -/
theorem bind_eq_error {β : Type} {x : Except ε α} {f : α → Except ε β} {e : ε} :
    (x >>= f) = .error e ↔ x = .error e ∨ ∃ a, x = .ok a ∧ f a = .error e := by
  cases x <;> simp

theorem bind_ne_error {β : Type} {x : Except ε α} {f : α → Except ε β} {e : ε} :
    (x >>= f) ≠ .error e ↔ x ≠ .error e ∧ ∀ a, x = .ok a → f a ≠ .error e := by
  cases x <;> simp

theorem ite_ne_error {p : Prop} [Decidable p] {x y : Except ε α} {e : ε} (hx : x ≠ .error e)
    (hy : y ≠ .error e) : (if p then x else y) ≠ .error e := by
  split
  · exact hx
  · exact hy

/-- The result of a computation, where there is one, meets `Q`. -/
def Ensures (x : Except ε α) (Q : α → Prop) : Prop := ∀ a, x = .ok a → Q a

theorem ensures_pure {Q : α → Prop} {a : α} (h : Q a) : Ensures (pure a : Except ε α) Q := by
  intro b hb
  cases hb
  exact h

theorem ensures_error {Q : α → Prop} {e : ε} : Ensures (.error e) Q := fun _ hb => nomatch hb

/-- The rule of sequences. -/
theorem Ensures.bind {β : Type} {x : Except ε α} {f : α → Except ε β} {P : α → Prop}
    {Q : β → Prop} (hx : Ensures x P) (hf : ∀ a, P a → Ensures (f a) Q) : Ensures (x >>= f) Q := by
  intro b hb
  obtain ⟨a, ha, hb⟩ := bind_eq_ok.mp hb
  exact hf a (hx a ha) b hb

theorem Ensures.mono {x : Except ε α} {P Q : α → Prop} (hx : Ensures x P) (h : ∀ a, P a → Q a) :
    Ensures x Q := fun a ha => h a (hx a ha)

section Inputs

variable (step : σ → α → Except ε σ)

/-- Feed the inputs one after the other; the first error ends the run. -/
def run : List α → σ → Except ε σ
  | [], s => .ok s
  | a :: as, s => step s a >>= run as

@[simp] theorem run_nil (s : σ) : run step [] s = .ok s := rfl
@[simp] theorem run_cons (a : α) (as : List α) (s : σ) :
    run step (a :: as) s = step s a >>= run step as := rfl

theorem run_append (as bs : List α) (s : σ) :
    run step (as ++ bs) s = run step as s >>= run step bs := by
  induction as generalizing s with
  | nil => rfl
  | cons a as ih =>
    simp only [List.cons_append, run_cons]
    cases step s a with
    | error e => rfl
    | ok t => exact ih t

theorem run_snoc_ok {as : List α} {a : α} {s u : σ} :
    run step (as ++ [a]) s = .ok u ↔ ∃ t, run step as s = .ok t ∧ step t a = .ok u := by
  rw [run_append, bind_eq_ok]
  simp [bind_eq_ok]

/-- Every input meets `P` in the state it is fed to. -/
def Along (P : σ → α → Prop) : List α → σ → Prop
  | [], _ => True
  | a :: as, s => P s a ∧ ∀ t, step s a = .ok t → Along P as t

@[simp] theorem along_nil (P : σ → α → Prop) (s : σ) : Along step P [] s := trivial

theorem along_cons {P : σ → α → Prop} {a : α} {as : List α} {s : σ} :
    Along step P (a :: as) s ↔ P s a ∧ ∀ t, step s a = .ok t → Along step P as t := Iff.rfl

theorem along_append {P : σ → α → Prop} {as bs : List α} {s : σ} :
    Along step P (as ++ bs) s ↔
      Along step P as s ∧ ∀ t, run step as s = .ok t → Along step P bs t := by
  induction as generalizing s with
  | nil => simp
  | cons a as ih =>
    simp only [List.cons_append, along_cons, run_cons, bind_eq_ok, and_assoc]
    refine and_congr_right fun _ => ⟨fun h => ⟨fun t ht => (ih.mp (h t ht)).1, ?_⟩, ?_⟩
    · rintro u ⟨t, ht, hu⟩
      exact (ih.mp (h t ht)).2 u hu
    · rintro ⟨h, hb⟩ t ht
      exact ih.mpr ⟨h t ht, fun u hu => hb u ⟨t, ht, hu⟩⟩

instance decidableAlong (P : σ → α → Prop) [∀ s a, Decidable (P s a)] :
    ∀ as s, Decidable (Along step P as s)
  | [], _ => .isTrue trivial
  | a :: as, s =>
    match h : step s a with
    | .error _ => decidable_of_iff (P s a) (by simp [along_cons, h])
    | .ok t =>
      have := decidableAlong P as t
      decidable_of_iff (P s a ∧ Along step P as t) (by simp [along_cons, h])

theorem along_congr {P Q : σ → α → Prop} {as : List α} {s : σ}
    (h : ∀ a ∈ as, ∀ t, P t a ↔ Q t a) : Along step P as s ↔ Along step Q as s := by
  induction as generalizing s with
  | nil => exact Iff.rfl
  | cons a as ih =>
    rw [along_cons, along_cons, h a (by simp)]
    exact and_congr_right fun _ => forall_congr' fun t => imp_congr_right fun _ =>
      ih fun b hb => h b (by simp [hb])

/-- A run goes through when every step does. -/
theorem run_ok_iff {as : List α} {s : σ} :
    (∃ t, run step as s = .ok t) ↔ Along step (fun s a => ∃ t, step s a = .ok t) as s := by
  induction as generalizing s with
  | nil => simp
  | cons a as ih =>
    simp only [run_cons, bind_eq_ok, along_cons]
    constructor
    · rintro ⟨u, t, ht, hu⟩
      refine ⟨⟨t, ht⟩, fun t' ht' => ?_⟩
      cases ht.symm.trans ht'
      exact ih.mp ⟨u, hu⟩
    · rintro ⟨⟨t, ht⟩, hrest⟩
      obtain ⟨u, hu⟩ := ih.mpr (hrest t ht)
      exact ⟨u, t, ht, hu⟩

/-- The error of a run is the error of one of its steps. -/
theorem run_error {as : List α} {s : σ} {e : ε} (h : run step as s = .error e) :
    ∃ t, ∃ a ∈ as, step t a = .error e := by
  induction as generalizing s with
  | nil => cases h
  | cons a as ih =>
    rw [run_cons] at h
    cases hs : step s a with
    | error e' =>
      rw [hs] at h
      cases h
      exact ⟨s, a, by simp, hs⟩
    | ok t =>
      rw [hs] at h
      obtain ⟨u, b, hb, hu⟩ := ih h
      exact ⟨u, b, by simp [hb], hu⟩

/-- A run ends in an error of one kind when a step that is reached does. -/
theorem run_error_iff {E : ε → Prop} {as : List α} {s : σ} :
    (∃ e, E e ∧ run step as s = .error e) ↔
      ¬ Along step (fun s a => ¬ ∃ e, E e ∧ step s a = .error e) as s := by
  induction as generalizing s with
  | nil => simp
  | cons a as ih =>
    rw [run_cons, along_cons]
    cases hs : step s a with
    | error e => simp
    | ok t => simp [ih]

/-- The invariant rule: what a step on any of the inputs keeps, the run keeps. -/
theorem run_invariant {P : α → Prop} {I : σ → Prop}
    (hstep : ∀ s a t, P a → I s → step s a = .ok t → I t) {as : List α} (has : ∀ a ∈ as, P a)
    {s t : σ} (hi : I s) (h : run step as s = .ok t) : I t := by
  induction as generalizing s with
  | nil =>
    cases h
    exact hi
  | cons a as ih =>
    obtain ⟨u, hu, ht⟩ := bind_eq_ok.mp h
    obtain ⟨ha, has⟩ := List.forall_mem_cons.mp has
    exact ih has (hstep s a u ha hi hu) ht

/-- Where no step that meets its condition fails, no run does. -/
theorem run_total {P : σ → α → Prop} {I : σ → Prop}
    (hstep : ∀ s a, I s → P s a → ∃ t, step s a = .ok t ∧ I t)
    {as : List α} {s : σ} (hi : I s) (hp : Along step P as s) :
    ∃ t, run step as s = .ok t ∧ I t := by
  induction as generalizing s with
  | nil => exact ⟨s, rfl, hi⟩
  | cons a as ih =>
    obtain ⟨u, hu, hiu⟩ := hstep s a hi hp.1
    obtain ⟨t, ht, hit⟩ := ih hiu (hp.2 u hu)
    exact ⟨t, by simp [hu, ht], hit⟩

end Inputs

/-- What the body of a loop does with the state it is entered in. -/
inductive Outcome (σ : Type) where
  | next : σ → Outcome σ
  | stop : σ → Outcome σ
  deriving DecidableEq, Repr

/-- The same outcome with another state. -/
def Outcome.map (f : σ → τ) : Outcome σ → Outcome τ
  | .next s => .next (f s)
  | .stop s => .stop (f s)

section Loop

variable (body : σ → Except ε (Outcome σ))

/-- At most `k` iterations of a loop; a loop that was left stays left. -/
def iterate : Nat → σ → Except ε (Outcome σ)
  | 0, s => .ok (.next s)
  | k + 1, s => body s >>= fun o => match o with
    | .next t => iterate k t
    | .stop t => .ok (.stop t)

@[simp] theorem iterate_zero (s : σ) : iterate body 0 s = .ok (.next s) := rfl

theorem iterate_succ_of_next {s t : σ} (k : Nat) (h : body s = .ok (.next t)) :
    iterate body (k + 1) s = iterate body k t := by
  simp [iterate, h]

theorem iterate_succ_of_stop {s t : σ} (k : Nat) (h : body s = .ok (.stop t)) :
    iterate body (k + 1) s = .ok (.stop t) := by
  simp [iterate, h]

theorem iterate_succ_next {k : Nat} {s u : σ} :
    iterate body (k + 1) s = .ok (.next u) ↔
      ∃ t, iterate body k s = .ok (.next t) ∧ body t = .ok (.next u) := by
  induction k generalizing s with
  | zero =>
    simp only [iterate, bind_eq_ok]
    constructor
    · rintro ⟨o, ho, h⟩
      cases o <;> simp_all
    · rintro ⟨t, ht, h⟩
      cases ht
      exact ⟨_, h, rfl⟩
  | succ k ih =>
    rw [iterate, bind_eq_ok]
    constructor
    · rintro ⟨o, ho, h⟩
      cases o with
      | stop t => simp at h
      | next t =>
        obtain ⟨v, hv, hu⟩ := ih.mp h
        exact ⟨v, by rw [iterate_succ_of_next body k ho]; exact hv, hu⟩
    · rintro ⟨v, hv, hu⟩
      rw [iterate, bind_eq_ok] at hv
      obtain ⟨o, ho, h⟩ := hv
      cases o with
      | stop t => simp at h
      | next t => exact ⟨_, ho, ih.mpr ⟨v, h, hu⟩⟩

/-- The last iteration. -/
theorem iterate_succ_last {k : Nat} {s t : σ} (h : iterate body k s = .ok (.next t)) :
    iterate body (k + 1) s = body t := by
  induction k generalizing s with
  | zero =>
    cases h
    rw [iterate]
    cases body t with
    | error e => rfl
    | ok o => cases o <;> rfl
  | succ k ih =>
    rw [iterate, bind_eq_ok] at h
    obtain ⟨o, ho, h⟩ := h
    cases o with
    | stop u => cases h
    | next u => rw [iterate_succ_of_next body _ ho, ih h]

/-- A loop that has ended has ended for good. -/
theorem iterate_ended {k m : Nat} {s : σ} {r : Except ε (Outcome σ)}
    (h : iterate body k s = r) (hr : ∀ t, r ≠ .ok (.next t)) (hle : k ≤ m) :
    iterate body m s = r := by
  induction k generalizing s m with
  | zero => exact absurd h.symm (hr s)
  | succ k ih =>
    obtain ⟨m, rfl⟩ := Nat.exists_eq_add_of_le' (Nat.le_trans (Nat.le_add_left 1 k) hle)
    rw [iterate] at h ⊢
    cases hb : body s with
    | error e =>
      rw [hb] at h
      exact h
    | ok o =>
      rw [hb] at h
      cases o with
      | stop t => exact h
      | next t => exact ih h (Nat.le_of_succ_le_succ hle)

/-- What every iteration keeps holds whenever the loop is at its head. -/
theorem iterate_invariant {P I : σ → Prop}
    (hbody : ∀ s t, I s → P s → body s = .ok (.next t) → I t)
    {k : Nat} {s t : σ} (hi : I s)
    (hp : ∀ j < k, ∀ u, iterate body j s = .ok (.next u) → P u)
    (h : iterate body k s = .ok (.next t)) : I t := by
  induction k generalizing t with
  | zero =>
    cases h
    exact hi
  | succ k ih =>
    obtain ⟨u, hu, ht⟩ := (iterate_succ_next body).mp h
    have hiu := ih (fun j hj => hp j (by omega)) hu
    exact hbody u t hiu (hp k (by omega) u hu) ht

/-- A loop fails with an error when an iteration that is reached does. -/
theorem iterate_ne_error {e : ε} {k : Nat} {s : σ} : iterate body k s ≠ .error e ↔
    ∀ i < k, ∀ t, iterate body i s = .ok (.next t) → body t ≠ .error e := by
  induction k generalizing s with
  | zero => simp
  | succ k ih =>
    rw [iterate, bind_ne_error, Nat.forall_lt_succ_left]
    refine and_congr (by simp) ?_
    cases hb : body s with
    | error e' => simp [iterate, hb]
    | ok o =>
      cases o with
      | stop t => simp [iterate, hb]
      | next t => simpa [iterate, hb] using ih

/-- A loop whose body follows another one, as long as `P` holds of the states at
its head, follows it for as many iterations. -/
theorem iterate_map {body' : τ → Except ε (Outcome τ)} {f : τ → σ} {P : τ → Prop}
    (hbody : ∀ t, P t → body (f t) = (body' t).map (Outcome.map f)) {k : Nat} {t : τ}
    (hp : ∀ i < k, ∀ u, iterate body' i t = .ok (.next u) → P u) :
    iterate body k (f t) = (iterate body' k t).map (Outcome.map f) := by
  induction k generalizing t with
  | zero => rfl
  | succ k ih =>
    have ht := hp 0 (by omega) t rfl
    simp only [iterate, hbody t ht]
    cases hb : body' t with
    | error e => rfl
    | ok o =>
      cases o with
      | stop u => rfl
      | next u =>
        refine ih fun i hi v hv => hp (i + 1) (by omega) v ?_
        rw [iterate_succ_of_next body' i hb]
        exact hv

/-- A loop whose body follows another one, errors included. -/
theorem iterate_mapBoth {ε' : Type} {body' : τ → Except ε' (Outcome τ)} {g : ε → ε'} {f : σ → τ}
    (hbody : ∀ s, body' (f s) = mapBoth g (Outcome.map f) (body s)) (k : Nat) (s : σ) :
    iterate body' k (f s) = mapBoth g (Outcome.map f) (iterate body k s) := by
  induction k generalizing s with
  | zero => rfl
  | succ k ih =>
    rw [iterate, iterate, hbody]
    apply mapBoth_bind
    intro o
    cases o with
    | next t => exact ih t
    | stop t => rfl

/-- Lockstep: as long as `P` holds, the loop goes on exactly where the function `f`
does not stand still, and each iteration is one application of `f`. -/
theorem iterate_lockstep {f : τ → τ} {R : σ → τ → Prop} {P : τ → Prop}
    (hbody : ∀ s t, R s t → P t → (∃ u, body s = .ok (.next u) ∧ R u (f t)) ∨
      body s = .ok (.stop s) ∧ f t = t) {k : Nat} {s : σ} {t : τ} (hr : R s t)
    (hp : ∀ i < k, P (f^[i] t)) :
    ∃ u, (iterate body k s = .ok (.next u) ∨ iterate body k s = .ok (.stop u)) ∧
      R u (f^[k] t) := by
  induction k generalizing s t with
  | zero => exact ⟨s, .inl rfl, hr⟩
  | succ k ih =>
    rcases hbody s t hr (hp 0 (Nat.succ_pos k)) with ⟨u, hu, hru⟩ | ⟨hstop, hstill⟩
    · obtain ⟨v, hv, hrv⟩ := ih hru fun i hi => hp (i + 1) (Nat.succ_lt_succ hi)
      exact ⟨v, by rwa [iterate_succ_of_next body k hu], hrv⟩
    · refine ⟨s, .inr (iterate_succ_of_stop body k hstop), ?_⟩
      rwa [Function.iterate_fixed hstill]

/-- The whole loop, where the measure `m` bounds the iterations that are left. -/
def loop (m : σ → Nat) (s : σ) : Except ε σ :=
  iterate body (m s + 1) s >>= fun o => match o with
    | .next t => .ok t
    | .stop t => .ok t

section Measure

variable {body} {m : σ → Nat}

theorem iterate_enough (hm : ∀ s t, body s = .ok (.next t) → m t < m s) {s : σ} {k : Nat}
    (hk : m s < k) : iterate body k s = iterate body (m s + 1) s := by
  induction hn : m s using Nat.strongRecOn generalizing s k with
  | ind n ih =>
    subst hn
    obtain ⟨k, rfl⟩ := Nat.exists_eq_succ_of_ne_zero (by omega : k ≠ 0)
    simp only [iterate]
    cases hb : body s with
    | error e => rfl
    | ok o =>
      cases o with
      | stop t => rfl
      | next t =>
        have ht := hm s t hb
        have hk' := ih (m t) ht (k := k) (by omega) rfl
        exact hk'.trans (ih (m t) ht ht rfl).symm

/-- The loop is left after finitely many iterations. -/
theorem iterate_ends (hm : ∀ s t, body s = .ok (.next t) → m t < m s) (s : σ) :
    ∃ k, ∀ t, iterate body k s ≠ .ok (.next t) := by
  induction hn : m s using Nat.strongRecOn generalizing s with
  | ind n ih =>
    subst hn
    cases hb : body s with
    | error e => exact ⟨1, by simp [iterate, hb]⟩
    | ok o =>
      cases o with
      | stop t => exact ⟨1, by simp [iterate, hb]⟩
      | next t =>
        obtain ⟨k, hk⟩ := ih (m t) (hm s t hb) t rfl
        exact ⟨k + 1, by rwa [iterate_succ_of_next body k hb]⟩

theorem loop_mapBoth {ε' : Type} {body' : τ → Except ε' (Outcome τ)} {m' : τ → Nat} {g : ε → ε'}
    {f : σ → τ} (hm : ∀ s t, body s = .ok (.next t) → m t < m s)
    (hbody : ∀ s, body' (f s) = mapBoth g (Outcome.map f) (body s)) {s : σ} (hle : m s ≤ m' (f s)) :
    loop body' m' (f s) = mapBoth g f (loop body m s) := by
  rw [loop, loop, iterate_mapBoth body hbody, iterate_enough hm (Nat.lt_succ_of_le hle)]
  apply mapBoth_bind
  intro o
  cases o <;> rfl

theorem loop_of_next (hm : ∀ s t, body s = .ok (.next t) → m t < m s) {s t : σ}
    (h : body s = .ok (.next t)) : loop body m s = loop body m t := by
  rw [loop, loop, iterate_succ_of_next body _ h, iterate_enough hm (hm s t h)]

theorem loop_of_stop {s t : σ} (h : body s = .ok (.stop t)) : loop body m s = .ok t := by
  rw [loop, iterate_succ_of_stop body _ h]
  rfl

theorem loop_of_error {s : σ} {e : ε} (h : body s = .error e) : loop body m s = .error e := by
  simp [loop, iterate, h]

/-- What the last iteration establishes and every other one carries back holds of the loop. -/
theorem loop_ok {P : σ → σ → Prop} (hm : ∀ s t, body s = .ok (.next t) → m t < m s)
    (hstop : ∀ s t, body s = .ok (.stop t) → P s t)
    (hnext : ∀ s t u, body s = .ok (.next t) → P t u → P s u) {s t : σ}
    (h : loop body m s = .ok t) : P s t := by
  induction hn : m s using Nat.strongRecOn generalizing s with
  | ind n ih =>
    subst hn
    cases hb : body s with
    | error e =>
      rw [loop_of_error hb] at h
      cases h
    | ok o =>
      cases o with
      | stop u =>
        rw [loop_of_stop hb] at h
        cases h
        exact hstop s _ hb
      | next u =>
        rw [loop_of_next hm hb] at h
        exact hnext s u t hb (ih (m u) (hm s u hb) h rfl)

/-- What a failing iteration establishes and every other one carries back holds of a
loop that fails. -/
theorem loop_error {P : σ → Prop} {e : ε} (hm : ∀ s t, body s = .ok (.next t) → m t < m s)
    (hfail : ∀ s, body s = .error e → P s)
    (hnext : ∀ s t, body s = .ok (.next t) → P t → P s) {s : σ} (h : loop body m s = .error e) :
    P s := by
  induction hn : m s using Nat.strongRecOn generalizing s with
  | ind n ih =>
    subst hn
    cases hb : body s with
    | error e' =>
      rw [loop_of_error hb] at h
      cases h
      exact hfail s hb
    | ok o =>
      cases o with
      | stop t =>
        rw [loop_of_stop hb] at h
        cases h
      | next t =>
        rw [loop_of_next hm hb] at h
        exact hnext s t hb (ih (m t) (hm s t hb) h rfl)

/-- The rule of loops: where every iteration that finds `I` hands it on, leaves with `Q` or
fails with `F`, the loop is left with `Q` or fails with `F`. -/
theorem loop_rule {I Q : σ → Prop} {F : ε → Prop}
    (hm : ∀ s t, body s = .ok (.next t) → m t < m s)
    (hbody : ∀ s, I s → (∃ t, body s = .ok (.next t) ∧ I t) ∨ (∃ t, body s = .ok (.stop t) ∧ Q t) ∨
      ∃ e, body s = .error e ∧ F e) {s : σ} (hi : I s) :
    (∃ t, loop body m s = .ok t ∧ Q t) ∨ ∃ e, loop body m s = .error e ∧ F e := by
  induction hn : m s using Nat.strongRecOn generalizing s with
  | ind n ih =>
    subst hn
    rcases hbody s hi with ⟨t, ht, hit⟩ | ⟨t, ht, hq⟩ | ⟨e, he, hf⟩
    · rw [loop_of_next hm ht]
      exact ih (m t) (hm s t ht) hit rfl
    · exact .inl ⟨t, loop_of_stop ht, hq⟩
    · exact .inr ⟨e, loop_of_error he, hf⟩

/-- A whole loop fails with an error when an iteration that is reached does. -/
theorem loop_ne_error {e : ε} (hm : ∀ s t, body s = .ok (.next t) → m t < m s) {s : σ} :
    loop body m s ≠ .error e ↔
      ∀ i t, iterate body i s = .ok (.next t) → body t ≠ .error e := by
  have hloop : ∀ k, m s < k → (loop body m s = .error e ↔ iterate body k s = .error e) := by
    intro k hk
    rw [iterate_enough hm hk, loop]
    cases iterate body (m s + 1) s with
    | error e' => simp
    | ok o => cases o <;> simp
  constructor
  · intro h i t ht
    exact (iterate_ne_error body).mp (mt (hloop (m s + 1 + i) (by omega)).mpr h) i (by omega) t ht
  · intro h
    exact mt (hloop (m s + 1) (Nat.lt_succ_self _)).mp
      ((iterate_ne_error body).mpr fun i _ t ht => h i t ht)

end Measure

end Loop

end Runs
