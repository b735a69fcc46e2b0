import Chip32.VmStack
import Chip32.VmPaging
import Chip32.VmAccess

/-!
# Calls and returns

The stack between other commands. A program keeps to the stack when its data commands
leave STK, FRM and the cells above STK alone, and it pops and returns no further than
it pushed and called. Then every `ret` goes back behind the `call` it belongs to,
however many calls were made and returned from in between.
-/
namespace Vm

/-- Stack commands as in `Allowed`, said of RAM alone; of every other command, that it writes
neither STK nor FRM nor a cell of the stack. -/
def Disciplined (h : Host) (c : Chip) (pcmd : Command) : Prop :=
  match Opcode.ofCode pcmd.cmd with
  | .push => PlainOperand c pcmd ∧ 34 < (cell c.ram regStk).toInt
  | .pop => arg0fGet pcmd.flags = .ram ∧ PlainCell c.ram pcmd.arg0 ∧
      pcmd.arg0.toInt ≤ (cell c.ram regStk).toInt + 1 ∧ cell c.ram regStk ≠ cell c.ram regFrm
  | .call => PlainOperand c pcmd ∧ 35 < (cell c.ram regStk).toInt
  | .ret => (cell c.ram regFrm).toNat + 1 < c.ram.length
  | _ => ∀ x ∈ writes h c pcmd, x ≠ regStk ∧ x ≠ regFrm ∧ x.toNat ≤ (cell c.ram regStk).toNat

section Steps

variable {h : Host} {c d : Chip} {a : CallStack} {pcmd q : Command} {ram ram' : List Word}

/-- What lies above STK is the stack, whatever happens below. -/
theorem Represents.keep (hr : Represents ram a) (hlen : ram'.length = ram.length)
    (hstk : cell ram' regStk = cell ram regStk) (hfrm : cell ram' regFrm = cell ram regFrm)
    (hkeep : ∀ x : Word, (cell ram regStk).toNat < x.toNat → cell ram' x = cell ram x) :
    Represents ram' a where
  size := hlen ▸ hr.size
  floor := hstk ▸ hr.floor
  top := by
    rw [hstk, hlen]
    exact hr.top
  stack := by
    rw [hstk, ← hr.stack]
    refine List.ext_getElem (by simp [hlen]) fun i _ hi => ?_
    have hlength := hr.length
    have hbound : i < (region a.words a.calls).length := hr.stack ▸ hi
    have hsmall := hr.small (List.ne_nil_of_length_pos (Nat.zero_lt_of_lt hbound))
    obtain ⟨n, hn⟩ : ∃ n, n = (cell ram regStk).toNat + 1 + i := ⟨_, rfl⟩
    have hx : (BitVec.ofNat 32 n).toNat = n := Nat.mod_eq_of_lt (by omega)
    have hcell := hkeep (.ofNat 32 n) (by omega)
    rw [cell, cell, hx, List.getD_eq_getElem?_getD, List.getD_eq_getElem?_getD,
      List.getElem?_eq_getElem (show n < ram'.length by omega),
      List.getElem?_eq_getElem (show n < ram.length by omega)] at hcell
    subst hn
    rw [List.getElem_drop, List.getElem_drop]
    exact hcell
  frame := by
    rw [hfrm, hlen]
    exact hr.frame
  saved := hlen ▸ hr.saved
  small := hlen ▸ hr.small

/-- What a program that keeps to the stack asks of it is there. -/
theorem Disciplined.allowed (hd : Disciplined h c pcmd) (hr : Represents c.ram a)
    (hop : Opcode.ofCode pcmd.cmd = .push ∨ Opcode.ofCode pcmd.cmd = .pop ∨
      Opcode.ofCode pcmd.cmd = .call ∨ Opcode.ofCode pcmd.cmd = .ret) : Allowed c a pcmd := by
  unfold Disciplined at hd
  unfold Allowed
  rcases hop with hop | hop | hop | hop <;> simp only [hop] at hd ⊢
  · exact hd
  · obtain ⟨hmode, hcell, hout, hne⟩ := hd
    refine ⟨hmode, hcell, hout, fun hnil => hne (BitVec.eq_of_toNat_eq ?_)⟩
    have hwords := hr.words_length
    rw [hnil] at hwords
    exact hwords
  · exact hd
  · intro hnil
    have hframe := hr.frame
    rw [hnil, region] at hframe
    exact absurd hframe (Nat.ne_of_lt hd)

/-- One step of a program that keeps to the stack. -/
theorem represents_step (hr : Represents c.ram a) (hd : Disciplined h c pcmd)
    (he : execute h c pcmd = .ok (d, q)) :
    Represents d.ram (a.track c pcmd) ∧ Delivers a pcmd d := by
  by_cases hop : Opcode.ofCode pcmd.cmd = .push ∨ Opcode.ofCode pcmd.cmd = .pop ∨
      Opcode.ofCode pcmd.cmd = .call ∨ Opcode.ofCode pcmd.cmd = .ret
  · obtain ⟨_, hd', hrep, hdel⟩ := step_represents (h := h) hr (hd.allowed hr hop)
    cases he.symm.trans hd'
    exact ⟨hrep, hdel⟩
  · have hwrites : ∀ x ∈ writes h c pcmd,
        x ≠ regStk ∧ x ≠ regFrm ∧ x.toNat ≤ (cell c.ram regStk).toNat := by
      unfold Disciplined at hd
      split at hd <;> simp_all
    have hram : c.ram ≠ [] := List.ne_nil_of_length_pos (Nat.lt_of_lt_of_le (by decide) hr.size)
    obtain ⟨hlen, hkept⟩ := execute_kept hram he
    have hsame : a.track c pcmd = a := by
      unfold CallStack.track
      split <;> simp_all
    rw [hsame]
    refine ⟨hr.keep hlen (hkept _ fun hx => (hwrites _ hx).1 rfl)
      (hkept _ fun hx => (hwrites _ hx).2.1 rfl) fun x hlt => hkept x fun hx => ?_, ?_⟩
    · exact absurd (hwrites x hx).2.2 (Nat.not_le.mpr hlt)
    · unfold Delivers
      split <;> simp_all

end Steps

/-- A run of the flat machine, state by state. -/
structure Trace (h : Host) (prog : List Command) (n : Nat) where
  chip : Nat → Chip
  turn : ∀ m < n, flatTurn h prog (chip m) = .ok (.next (chip (m + 1)))

/-- The command the flat machine executes next. -/
def fetch (prog : List Command) (c : Chip) : Option Command := prog[pcIndex c]?

def Executing (prog : List Command) (c : Chip) (op : Opcode) : Prop :=
  (fetch prog c).map (fun pcmd => Opcode.ofCode pcmd.cmd) = some op

instance (prog : List Command) (c : Chip) (op : Opcode) : Decidable (Executing prog c op) :=
  inferInstanceAs (Decidable (_ = _))

/-- How a command changes the number of open calls. -/
def nesting (prog : List Command) (c : Chip) : Int :=
  match (fetch prog c).map (fun pcmd => Opcode.ofCode pcmd.cmd) with
  | some .call => 1
  | some .ret => -1
  | _ => 0

/-- The calls less the returns of the first `m` steps. -/
def depth (prog : List Command) (chip : Nat → Chip) : Nat → Int
  | 0 => 0
  | m + 1 => depth prog chip m + nesting prog (chip m)

/-- Step `j` returns from the call of step `i`: the last one at its depth. -/
structure Closes (prog : List Command) (chip : Nat → Chip) (i j : Nat) : Prop where
  before : i < j
  call : Executing prog (chip i) .call
  level : depth prog chip j = depth prog chip i + 1
  inside : ∀ k, i < k → k ≤ j → depth prog chip i < depth prog chip k

/-- The registers and the stack are as they were before a call, and the PC is behind it. -/
structure GoesBack (c d : Chip) : Prop where
  pc : cell d.ram regPc = cell c.ram regPc + 1
  stk : cell d.ram regStk = cell c.ram regStk
  frm : cell d.ram regFrm = cell c.ram regFrm
  stack : d.ram.drop ((cell c.ram regStk).toNat + 1) = c.ram.drop ((cell c.ram regStk).toNat + 1)

section Runs

variable {h : Host} {prog : List Command} {n : Nat} {c d : Chip}

theorem flatTurn_next (ht : flatTurn h prog c = .ok (.next d)) :
    ∃ pcmd q, fetch prog c = some pcmd ∧ execute h c pcmd = .ok (d, q) := by
  unfold flatTurn at ht
  split at ht
  · cases ht
  · obtain ⟨pc, hpc, ht⟩ := Runs.bind_eq_ok.mp ht
    obtain ⟨_, rfl⟩ := load_eq_ok.mp hpc
    simp only at ht
    split at ht
    · cases ht
    · next pcmd hcur =>
      obtain ⟨x, hx, ht⟩ := Runs.bind_eq_ok.mp ht
      obtain ⟨d', q⟩ := x
      cases ht
      exact ⟨pcmd, q, hcur, hx⟩

/-- The abstract stack along a run. -/
def stackAt (t : Trace h prog n) : Nat → CallStack
  | 0 => ⟨[], []⟩
  | m + 1 => match fetch prog (t.chip m) with
    | some pcmd => (stackAt t m).track (t.chip m) pcmd
    | none => stackAt t m

variable {t : Trace h prog n} {m i j : Nat}

theorem stackAt_succ {pcmd : Command} (hf : fetch prog (t.chip m) = some pcmd) :
    stackAt t (m + 1) = (stackAt t m).track (t.chip m) pcmd := by
  rw [stackAt, hf]

/-- The call `o`, on top of `os`, was made in step `i` and is open until step `m`. -/
structure MadeAt (t : Trace h prog n) (o : OpenCall) (os : List OpenCall) (m i : Nat) : Prop where
  before : i < m
  call : Executing prog (t.chip i) .call
  calls : (stackAt t i).calls = os
  record : o = ⟨cell (t.chip i).ram regPc, cell (t.chip i).ram regStk, cell (t.chip i).ram regFrm,
    (stackAt t i).words⟩
  since : ∀ k, i < k → k ≤ m → os.length < (stackAt t k).calls.length

theorem MadeAt.succ {o : OpenCall} {os : List OpenCall} (hm : MadeAt t o os m i)
    (hlast : os.length < (stackAt t (m + 1)).calls.length) : MadeAt t o os (m + 1) i where
  before := Nat.lt_succ_of_lt hm.before
  call := hm.call
  calls := hm.calls
  record := hm.record
  since k hk hle := by
    rcases Nat.lt_or_eq_of_le hle with hlt | rfl
    · exact hm.since k hk (Nat.le_of_lt_succ hlt)
    · exact hlast

theorem Closes.unique {i' : Nat} (hc : Closes prog t.chip i j)
    (hc' : Closes prog t.chip i' j) :
    i = i' := by
  have hlevel := hc.level
  have hlevel' := hc'.level
  rcases Nat.lt_trichotomy i i' with hlt | rfl | hlt
  · have hin := hc.inside i' hlt (Nat.le_of_lt hc'.before)
    omega
  · rfl
  · have hin := hc'.inside i hlt (Nat.le_of_lt hc.before)
    omega

section Keeping

variable (hstart : Represents (t.chip 0).ram ⟨[], []⟩)
  (hdis : ∀ m < n, ∀ pcmd, fetch prog (t.chip m) = some pcmd → Disciplined h (t.chip m) pcmd)
include hstart hdis

/-- RAM holds the abstract stack all along. -/
theorem trace_represents (hm : m ≤ n) : Represents (t.chip m).ram (stackAt t m) := by
  induction m with
  | zero => exact hstart
  | succ m ih =>
    obtain ⟨pcmd, q, hf, he⟩ := flatTurn_next (t.turn m hm)
    rw [stackAt_succ hf]
    exact (represents_step (ih (Nat.le_of_lt hm)) (hdis m hm pcmd hf) he).1

/-- What a step does to the open calls. -/
theorem trace_calls (hm : m < n) :
    Executing prog (t.chip m) .call ∧ nesting prog (t.chip m) = 1 ∧
        stackAt t (m + 1) = ⟨[], ⟨cell (t.chip m).ram regPc, cell (t.chip m).ram regStk,
          cell (t.chip m).ram regFrm, (stackAt t m).words⟩ :: (stackAt t m).calls⟩ ∨
      Executing prog (t.chip m) .ret ∧ nesting prog (t.chip m) = -1 ∧
        (∃ o os, (stackAt t m).calls = o :: os ∧ stackAt t (m + 1) = ⟨o.words, os⟩ ∧
          cell (t.chip (m + 1)).ram regStk = o.stk ∧ cell (t.chip (m + 1)).ram regFrm = o.frm ∧
          cell (t.chip (m + 1)).ram regPc = o.pc + 1) ∨
      nesting prog (t.chip m) = 0 ∧ ¬ Executing prog (t.chip m) .ret ∧
        (stackAt t (m + 1)).calls = (stackAt t m).calls := by
  obtain ⟨pcmd, q, hf, he⟩ := flatTurn_next (t.turn m hm)
  have hr := trace_represents hstart hdis (Nat.le_of_lt hm)
  have hd := hdis m hm pcmd hf
  have hdel := (represents_step hr hd he).2
  rw [stackAt_succ hf, nesting, Executing, Executing, hf, Option.map_some]
  cases hop : Opcode.ofCode pcmd.cmd with
  | call => exact .inl ⟨rfl, rfl, by simp [CallStack.track, hop]⟩
  | ret =>
    refine .inr (.inl ⟨rfl, rfl, ?_⟩)
    have hopen : (stackAt t m).calls ≠ [] := by
      have hall := hd.allowed hr (.inr (.inr (.inr hop)))
      simpa [Allowed, hop] using hall
    obtain ⟨o, os, ho⟩ := List.exists_cons_of_ne_nil hopen
    simp only [Delivers, hop, ho, List.head?_cons, Option.some.injEq] at hdel
    obtain ⟨_, rfl, hback⟩ := hdel
    exact ⟨_, os, ho, by simp [CallStack.track, hop, ho], hback⟩
  | _ => exact .inr (.inr ⟨rfl, by simp, by simp [CallStack.track, hop]⟩)

theorem depth_eq (hm : m ≤ n) : depth prog t.chip m = (stackAt t m).calls.length := by
  induction m with
  | zero => rfl
  | succ m ih =>
    rw [depth, ih (Nat.le_of_lt hm)]
    rcases trace_calls hstart hdis hm with ⟨_, hn, hs⟩ | ⟨_, hn, _, _, ho, hs, _⟩ | ⟨hn, _, hs⟩
    · rw [hn, hs, List.length_cons]
      rfl
    · rw [hn, hs, ho, List.length_cons]
      push_cast
      omega
    · rw [hn, hs, Int.add_zero]

/-- Every open call was made, and has been open since. -/
theorem open_call (hm : m ≤ n) {front os : List OpenCall} {o : OpenCall}
    (hcalls : (stackAt t m).calls = front ++ o :: os) : ∃ i, MadeAt t o os m i := by
  induction m generalizing front with
  | zero => simp [stackAt] at hcalls
  | succ m ih =>
    have hlast : os.length < (stackAt t (m + 1)).calls.length := by
      rw [hcalls, List.length_append, List.length_cons]
      omega
    have hold : ∀ front', (stackAt t m).calls = front' ++ o :: os →
        ∃ i, MadeAt t o os (m + 1) i := by
      intro front' hf
      obtain ⟨i, hi⟩ := ih (Nat.le_of_lt hm) hf
      exact ⟨i, hi.succ hlast⟩
    rcases trace_calls hstart hdis hm with ⟨hcall, _, hs⟩ | ⟨_, _, o', os', ho, hs, _⟩ | ⟨_, _, hs⟩
    · rw [hs] at hcalls
      cases front with
      | nil =>
        obtain ⟨rfl, rfl⟩ := List.cons.inj hcalls
        refine ⟨m, Nat.lt_succ_self m, hcall, rfl, rfl, fun k hk hle => ?_⟩
        obtain rfl : k = m + 1 := by omega
        exact hlast
      | cons p front => exact hold front (List.cons.inj hcalls).2
    · rw [hs] at hcalls
      exact hold (o' :: front) (ho.trans (congrArg (o' :: ·) hcalls))
    · exact hold front (hs ▸ hcalls)

end Keeping

/-- In a run that keeps to the stack every `ret` has a `call` it belongs to, one only, and
goes back behind it, with the registers and the stack as they were. -/
theorem calls_return (h : Host) (prog : List Command) (n : Nat) (t : Trace h prog n)
    (hsize : 36 ≤ (t.chip 0).ram.length)
    (hstk : (cell (t.chip 0).ram regStk).toNat + 1 = (t.chip 0).ram.length)
    (hfrm : (cell (t.chip 0).ram regFrm).toNat + 1 = (t.chip 0).ram.length)
    (hdis : ∀ m < n, ∀ pcmd, fetch prog (t.chip m) = some pcmd → Disciplined h (t.chip m) pcmd)
    (j : Nat) (hj : j < n) (hret : Executing prog (t.chip j) .ret) :
    ∃ i, Closes prog t.chip i j ∧ (∀ i', Closes prog t.chip i' j → i' = i) ∧
      GoesBack (t.chip i) (t.chip (j + 1)) := by
  have hstart := represents_empty hsize hstk hfrm
  rcases trace_calls hstart hdis hj with ⟨hcall, _⟩ | ⟨_, _, o, os, ho, hs, hstk', hfrm', hpc'⟩ |
    ⟨_, hno, _⟩
  · rw [Executing] at hcall hret
    cases hcall.symm.trans hret
  · have htop : (stackAt t j).calls = [] ++ o :: os := ho
    obtain ⟨i, hi⟩ := open_call hstart hdis (Nat.le_of_lt hj) htop
    have hbefore := hi.before
    have hdepth : ∀ k ≤ n, depth prog t.chip k = (stackAt t k).calls.length := fun k hk =>
      depth_eq hstart hdis hk
    have hcloses : Closes prog t.chip i j := by
      refine ⟨hi.before, hi.call, ?_, fun k hk hle => ?_⟩
      · rw [hdepth j (by omega), hdepth i (by omega), ho, hi.calls]
        rfl
      · rw [hdepth k (by omega), hdepth i (by omega), hi.calls]
        exact_mod_cast hi.since k hk hle
    refine ⟨i, hcloses, fun i' hi' => hi'.unique hcloses, ?_⟩
    have hri := trace_represents hstart hdis (m := i) (by omega)
    have hrj := trace_represents hstart hdis (m := j + 1) hj
    obtain rfl := hi.record
    have hback : cell (t.chip (j + 1)).ram regStk = cell (t.chip i).ram regStk := hstk'
    refine ⟨hpc', hback, hfrm', ?_⟩
    rw [hri.stack, ← hback, hrj.stack, hs, hi.calls]
  · exact absurd hret hno

end Runs

/-- `initr 42`, `call 3`, `nop`, then at 3 `call 5`, `ret`, and at 5 `ret`. -/
def callTwice : List Command :=
  [⟨0, 0x30, 42, 0⟩, ⟨0, 0x23, 3, 0⟩, ⟨0, 0, 0, 0⟩, ⟨0, 0x23, 5, 0⟩, ⟨0, 0x24, 0, 0⟩,
    ⟨0, 0x24, 0, 0⟩]

/-- Its registers and the last four cells of its memory. -/
def callState (pc stk frm : Word) (words : List Word) : Chip :=
  { Chip.new [] with ram := List.replicate 32 0 ++ [pc, stk, frm, 0, 0, 0] ++ words }

def callStates : Nat → Chip
  | 0 => callState 1 41 41 [0, 0, 0, 0]
  | 1 => callState 3 39 39 [0, 0, 41, 1]
  | 2 => callState 5 37 37 [39, 3, 41, 1]
  | 3 => callState 4 39 39 [39, 3, 41, 1]
  | _ => callState 2 41 41 [39, 3, 41, 1]

def callTrace : Trace bareHost callTwice 4 where
  chip := callStates
  turn := by
    have hall : ∀ m < 4, (flatTurn bareHost callTwice (callStates m)).toOption =
        some (.next (callStates (m + 1))) := by decide +kernel
    exact fun m hm => Runs.ok_of_toOption (hall m hm)

theorem callTrace_disciplined (m : Nat) (hm : m < 4) (pcmd : Command)
    (hf : fetch callTwice (callTrace.chip m) = some pcmd) :
    Disciplined bareHost (callTrace.chip m) pcmd := by
  obtain (rfl | rfl) | rfl | rfl : (m = 0 ∨ m = 1) ∨ m = 2 ∨ m = 3 := by omega
  iterate 2
    cases hf
    change PlainOperand _ _ ∧ (_ : Int) < _
    decide +kernel
  iterate 2
    cases hf
    change (_ : Nat) < _
    decide +kernel

/-- The outer `ret`. -/
theorem calls_return_twice :
    ∃ i, Closes callTwice callStates i 3 ∧ (∀ i', Closes callTwice callStates i' 3 → i' = i) ∧
      GoesBack (callStates i) (callStates 4) :=
  calls_return bareHost callTwice 4 callTrace (by decide) (by decide) (by decide)
    callTrace_disciplined 3 (by decide) (by decide +kernel)

end Vm
