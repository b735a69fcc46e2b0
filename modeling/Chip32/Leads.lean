import Chip32.Runs

/-!
# Rules for loops that come somewhere

Pre- and postconditions of the states in which a loop is at its head. `Leads body P Q` says
that from every state with `P` some iterations, none of which fails or leaves the loop, come
to a state with `Q`.
-/
namespace Runs

variable {σ ε : Type} {body : σ → Except ε (Outcome σ)}

theorem iterate_add {j : Nat} (k : Nat) {s t : σ} (h : iterate body j s = .ok (.next t)) :
    iterate body (j + k) s = iterate body k t := by
  induction j generalizing s with
  | zero =>
    cases h
    rw [Nat.zero_add]
  | succ j ih =>
    rw [iterate, bind_eq_ok] at h
    obtain ⟨o, ho, h⟩ := h
    cases o with
    | stop u => cases h
    | next u => rw [Nat.succ_add, iterate_succ_of_next body _ ho, ih h]

/-- From every state with `P` the loop comes to its head in a state with `Q`. -/
def Leads (body : σ → Except ε (Outcome σ)) (P Q : σ → Prop) : Prop :=
  ∀ s, P s → ∃ k t, iterate body k s = .ok (.next t) ∧ Q t

variable {P P' Q Q' R : σ → Prop}

theorem Leads.of_imp (h : ∀ s, P s → Q s) : Leads body P Q := fun s hs => ⟨0, s, rfl, h s hs⟩

theorem Leads.step (h : ∀ s, P s → ∃ t, body s = .ok (.next t) ∧ Q t) : Leads body P Q := by
  intro s hs
  obtain ⟨t, ht, hq⟩ := h s hs
  exact ⟨1, t, iterate_succ_of_next body 0 ht, hq⟩

theorem Leads.trans (h : Leads body P Q) (h' : Leads body Q R) : Leads body P R := by
  intro s hs
  obtain ⟨j, t, hj, ht⟩ := h s hs
  obtain ⟨k, u, hk, hu⟩ := h' t ht
  exact ⟨j + k, u, (iterate_add k hj).trans hk, hu⟩

/-- The rule of consequence. -/
theorem Leads.mono (h : Leads body P Q) (hp : ∀ s, P' s → P s) (hq : ∀ s, Q s → Q' s) :
    Leads body P' Q' :=
  ((Leads.of_imp hp).trans h).trans (.of_imp hq)

/-- An invariant that counts the rounds. -/
theorem Leads.rounds {I : Nat → σ → Prop} {n : Nat} (h : ∀ i < n, Leads body (I i) (I (i + 1))) :
    Leads body (I 0) (I n) := by
  induction n with
  | zero => exact .of_imp fun _ hi => hi
  | succ n ih => exact (ih fun i hi => h i (Nat.lt_succ_of_lt hi)).trans (h n (Nat.lt_succ_self n))

/-- An invariant and a measure that every round makes smaller. -/
theorem Leads.whileDo {I b : σ → Prop} (m : σ → Nat)
    (h : ∀ n, Leads body (fun s => I s ∧ b s ∧ m s = n) fun s => I s ∧ m s < n) :
    Leads body I fun s => I s ∧ ¬ b s := by
  intro s hs
  obtain ⟨n, hn⟩ : ∃ n, m s = n := ⟨_, rfl⟩
  induction n using Nat.strongRecOn generalizing s with
  | ind n ih =>
    by_cases hb : b s
    · obtain ⟨j, t, hj, ht, hlt⟩ := h n s ⟨hs, hb, hn⟩
      obtain ⟨k, u, hk, hu⟩ := ih (m t) hlt t ht rfl
      exact ⟨j + k, u, (iterate_add k hj).trans hk, hu⟩
    · exact ⟨0, s, rfl, hs, hb⟩

end Runs
