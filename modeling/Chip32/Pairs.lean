import Chip32.Runs

/-!
# Two runs side by side

Two computations are a pair when they fail alike or end with related results. Loops
whose iterations are pairs are pairs, whatever the relation does as they go on.
-/
namespace Runs

variable {α α' β β' σ τ ε : Type}

/-- The same error, or related results. -/
def Pairs (R : α → β → Prop) : Except ε α → Except ε β → Prop
  | .ok a, .ok b => R a b
  | .error e, .error e' => e = e'
  | _, _ => False

section Pairs

variable {R : α → β → Prop} {S : α' → β' → Prop} {x : Except ε α} {y : Except ε β}

theorem pairs_pure {a : α} {b : β} (h : R a b) :
    Pairs R (pure a : Except ε α) (pure b : Except ε β) := h

theorem pairs_error (e : ε) : Pairs R (.error e) (.error e) := rfl

/-- The rule of sequences. -/
theorem Pairs.bind (hx : Pairs R x y) {f : α → Except ε α'} {g : β → Except ε β'}
    (hf : ∀ a b, R a b → Pairs S (f a) (g b)) : Pairs S (x >>= f) (y >>= g) := by
  cases x with
  | error e =>
    cases y with
    | error e' => exact hx
    | ok b => exact hx.elim
  | ok a =>
    cases y with
    | error e' => exact hx.elim
    | ok b => exact hf a b hx

/-- Where both begin with the same computation. -/
theorem pairs_bind {x y : Except ε α} (hx : y = x) {f : α → Except ε α'} {g : α → Except ε β'}
    (hf : ∀ a, x = .ok a → Pairs S (f a) (g a)) : Pairs S (x >>= f) (y >>= g) := by
  subst hx
  cases y with
  | error e => rfl
  | ok a => exact hf a rfl

theorem Pairs.mono (hx : Pairs R x y) {R' : α → β → Prop} (h : ∀ a b, R a b → R' a b) :
    Pairs R' x y := by
  cases x with
  | error e => cases y <;> exact hx
  | ok a =>
    cases y with
    | error e => exact hx
    | ok b => exact h a b hx

theorem Pairs.ok (hx : Pairs R x y) {a : α} (ha : x = .ok a) : ∃ b, y = .ok b ∧ R a b := by
  subst ha
  cases y with
  | error e => exact hx.elim
  | ok b => exact ⟨b, rfl, hx⟩

/-- The related results are those of the two computations. -/
theorem Pairs.left (hx : Pairs R x y) : Pairs (fun a b => x = .ok a ∧ R a b) x y := by
  cases x with
  | error e => cases y <;> exact hx
  | ok a =>
    cases y with
    | error e => exact hx
    | ok b => exact ⟨rfl, hx⟩

end Pairs

/-- Both loops go on, or both are left. -/
def Outcomes (R S : σ → τ → Prop) : Outcome σ → Outcome τ → Prop
  | .next s, .next t => R s t
  | .stop s, .stop t => S s t
  | _, _ => False

/-- Loops side by side; the relation at their heads may depend on the iteration. -/
theorem iterate_pairs {body : σ → Except ε (Outcome σ)} {body' : τ → Except ε (Outcome τ)}
    {R : Nat → σ → τ → Prop} {S : σ → τ → Prop} {k : Nat} {s : σ} {t : τ} (h : R 0 s t)
    (hbody : ∀ i < k, ∀ s t, R i s t → Pairs (Outcomes (R (i + 1)) S) (body s) (body' t)) :
    Pairs (Outcomes (R k) S) (iterate body k s) (iterate body' k t) := by
  induction k generalizing R s t with
  | zero => exact h
  | succ k ih =>
    rw [iterate, iterate]
    apply (hbody 0 (Nat.succ_pos k) s t h).bind
    intro o o' ho
    cases o with
    | next u =>
      cases o' with
      | stop v => exact ho.elim
      | next v => exact ih ho fun i hi => hbody (i + 1) (Nat.succ_lt_succ hi)
    | stop u =>
      cases o' with
      | next v => exact ho.elim
      | stop v => exact ho

end Runs
