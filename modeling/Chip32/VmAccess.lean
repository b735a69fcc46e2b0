import Chip32.Pairs
import Chip32.VmBounds

/-!
# The cells a command reads and writes

They are named from the machine before the command. Two machines that agree on the
cells a command reads do the same: they agree on the cells it writes too, and every
other cell is as it was.
-/
namespace Vm

open Runs (Pairs pairs_pure pairs_bind pairs_error)

/-- The cells an operand is read through. -/
def operandReads (ram : List Word) (type : Mode) (r : Word) : List Word :=
  match type with
  | .ram => [r]
  | .ptr => [r, cell ram r]
  | _ => []

/-- The cells a store to an operand looks at. -/
def addressReads (type : Mode) (r : Word) : List Word :=
  match type with
  | .ptr => [r]
  | _ => []

/-- The cells a store to an operand writes. -/
def operandWrites (ram : List Word) (type : Mode) (r : Word) : List Word :=
  (destination ram type r).toList

/-- The cells of a string that is printed from `r` on. -/
def logsReads (h : Host) (ram : List Word) (type : Mode) : Nat → Word → List Word
  | 0, _ => []
  | k + 1, r => operandReads ram type r ++
      if value h ram type r = 0 then [] else logsReads h ram type k (r + 1)

/-- The cells that are read as a string is copied from `s` to `d`. -/
def strcpyReads (h : Host) (type : Mode) : Nat → List Word → Word → Word → List Word
  | 0, _, _, _ => []
  | k + 1, ram, d, s => operandReads ram type s ++ (addressReads type d ++
      if value h ram type s = 0 then []
      else strcpyReads h type k (copyStep h ram type d s) (d + 1) (s + 1))

/-- The cells it is copied to. -/
def strcpyWrites (h : Host) (type : Mode) : Nat → List Word → Word → Word → List Word
  | 0, _, _, _ => []
  | k + 1, ram, d, s => operandWrites ram type d ++
      if value h ram type s = 0 then []
      else strcpyWrites h type k (copyStep h ram type d s) (d + 1) (s + 1)

/-- The cells a command reads, its PC included. -/
def reads (h : Host) (c : Chip) (pcmd : Command) : List Word :=
  let type := arg0fGet pcmd.flags
  regPc :: match Opcode.ofCode pcmd.cmd with
    | .nop | .initr | .logln => []
    | .logi | .logu | .logc => operandReads c.ram type pcmd.arg0
    | .logs => logsReads h c.ram type (2 ^ 32) pcmd.arg0
    | .strcpy => strcpyReads h type (2 ^ 32) c.ram pcmd.arg0 pcmd.arg1
    | .push => operandReads (pushing h c.ram) type pcmd.arg0 ++ [regStk]
    | .pop => regStk :: (cell c.ram regStk + 1) :: addressReads type pcmd.arg0
    | .call => operandReads c.ram type pcmd.arg0 ++ [regStk, regFrm]
    | .ret => [regFrm, cell c.ram regFrm + 1, cell c.ram regFrm + 1 + 1]
    | .move => operandReads c.ram (arg1fGet pcmd.flags) pcmd.arg1 ++ addressReads type pcmd.arg0
    | op => operandReads c.ram type pcmd.arg0 ++
        if looksAt op (operand0 h c pcmd) then operandReads c.ram (arg1fGet pcmd.flags) pcmd.arg1
        else []

/-- The cells a command writes, its PC included. -/
def writes (h : Host) (c : Chip) (pcmd : Command) : List Word :=
  let type := arg0fGet pcmd.flags
  regPc :: match Opcode.ofCode pcmd.cmd with
    | .nop | .initr | .logi | .logu | .logc | .logs | .logln | .jmp | .ift | .iff => []
    | .strcpy => strcpyWrites h type (2 ^ 32) c.ram pcmd.arg0 pcmd.arg1
    | .push => [regStk, cell c.ram regStk]
    | .pop => regStk :: operandWrites (popped c.ram) type pcmd.arg0
    | .call => [regStk, cell c.ram regStk,
        cell (pushed c.ram (cell c.ram regPc)) regStk, regFrm]
    | .ret => [regStk, regFrm]
    | _ => operandWrites c.ram type pcmd.arg0

/-- Two machines since they were alike on the cells of `W`, the first of them as `c₀`:
they are alike still, on the cells `ws` that were written too, and all else is as it was. -/
structure Beside (c₀ : Chip) (W : Word → Prop) (ws : List Word) (a b : Chip) : Prop where
  same : ∃ ram, b = { a with ram := ram }
  length : b.ram.length = a.ram.length
  size : a.ram.length = c₀.ram.length
  kept : ∀ x, x ∉ ws → cell a.ram x = cell c₀.ram x
  agree : ∀ x, W x ∨ x ∈ ws → cell b.ram x = cell a.ram x

/-- Cells that both machines agree on. -/
def Known (W : Word → Prop) (ws xs : List Word) : Prop := ∀ x ∈ xs, W x ∨ x ∈ ws

section Accesses

variable {h : Host} {c₀ a b : Chip} {W : Word → Prop} {ws ws' xs ys : List Word} {type : Mode}
  {r v : Word}

theorem known_append : Known W ws (xs ++ ys) ↔ Known W ws xs ∧ Known W ws ys :=
  List.forall_mem_append

theorem known_cons : Known W ws (r :: xs) ↔ (W r ∨ r ∈ ws) ∧ Known W ws xs := List.forall_mem_cons

theorem Known.more (hk : Known W ws xs) : Known W (ys ++ ws) xs := by
  intro x hx
  cases hk x hx with
  | inl hw => exact .inl hw
  | inr hw => exact .inr (List.mem_append_right ys hw)

theorem Beside.congr (hb : Beside c₀ W ws a b) (hws : ∀ x, x ∈ ws ↔ x ∈ ws') :
    Beside c₀ W ws' a b where
  same := hb.same
  length := hb.length
  size := hb.size
  kept x hx := hb.kept x (mt (hws x).mp hx)
  agree x hx := hb.agree x (hx.imp_right (hws x).mpr)

theorem beside_start {c d : Chip} (hsame : ∃ ram, d = { c with ram := ram })
    (hlen : d.ram.length = c.ram.length) (hagree : ∀ x, W x → cell d.ram x = cell c.ram x) :
    Beside c W [] c d where
  same := hsame
  length := hlen
  size := rfl
  kept _ _ := rfl
  agree x hx := hagree x (hx.resolve_right List.not_mem_nil)

/-- What does not touch RAM. -/
theorem Beside.update (hb : Beside c₀ W ws a b) (f : Chip → Chip)
    (hf : ∀ c ram, f { c with ram := ram } = { f c with ram := ram }) :
    Beside c₀ W ws (f a) (f b) ∧ (f a).ram = a.ram := by
  have hram : ∀ c, (f c).ram = c.ram := by
    intro c
    have hc := congrArg Chip.ram (hf c c.ram)
    exact hc
  obtain ⟨⟨ram, rfl⟩, hlen, hsize, hkept, hagree⟩ := hb
  refine ⟨⟨⟨ram, hf a ram⟩, ?_, ?_, ?_, ?_⟩, hram a⟩
  · rw [hram, hram]
    exact hlen
  · rw [hram]
    exact hsize
  · rw [hram]
    exact hkept
  · rw [hram, hram]
    exact hagree

theorem known_address (hk : Known W ws (operandReads a.ram type r)) :
    Known W ws (addressReads type r) := by
  intro x hx
  apply hk
  cases type with
  | literal | ram | data => cases hx
  | ptr => exact List.mem_cons.mpr (.inl (List.mem_singleton.mp hx))

theorem Beside.inRam (hb : Beside c₀ W ws a b) : InRam b.ram r ↔ InRam a.ram r := by
  rw [InRam, InRam, hb.length]

theorem Beside.load (hb : Beside c₀ W ws a b) (hr : W r ∨ r ∈ ws) : load b r = load a r := by
  simp only [Vm.load, hb.inRam, hb.agree r hr]

theorem Beside.store (hb : Beside c₀ W ws a b) :
    Pairs (Beside c₀ W (r :: ws)) (store a r v) (store b r v) := by
  by_cases hin : InRam a.ram r
  · rw [store_ok hin, store_ok (hb.inRam.mpr hin)]
    have hin' := hb.inRam.mpr hin
    obtain ⟨⟨ram, rfl⟩, hlen, hsize, hkept, hagree⟩ := hb
    refine ⟨⟨_, rfl⟩, by simpa using hlen, by simpa using hsize, fun x hx => ?_, fun x hx => ?_⟩
    · obtain ⟨hne, hx⟩ := not_or.mp (mt List.mem_cons.mpr hx)
      exact (cell_set_ne (Ne.symm hne)).trans (hkept x hx)
    · by_cases hxr : x = r
      · subst hxr
        exact (cell_set_self hin').trans (cell_set_self hin).symm
      · have hx' : W x ∨ x ∈ ws := hx.imp_right fun hm => (List.mem_cons.mp hm).resolve_left hxr
        exact (cell_set_ne (Ne.symm hxr)).trans
          ((hagree x hx').trans (cell_set_ne (Ne.symm hxr)).symm)
  · rw [store_out hin, store_out (mt hb.inRam.mp hin)]
    exact pairs_error _

/-- A cell they agree on may count as written. -/
theorem Beside.also (hb : Beside c₀ W ws a b) (hr : W r ∨ r ∈ ws) : Beside c₀ W (r :: ws) a b where
  same := hb.same
  length := hb.length
  size := hb.size
  kept x hx := hb.kept x (mt (List.mem_cons_of_mem r) hx)
  agree x hx := by
    apply hb.agree
    rcases hx with hw | hm
    · exact .inl hw
    · rcases List.mem_cons.mp hm with rfl | hm
      · exact hr
      · exact .inr hm

theorem Beside.pushWord (hb : Beside c₀ W ws a b) (hs : W regStk ∨ regStk ∈ ws) :
    Pairs (fun a' b' => a'.ram = pushed a.ram v ∧
        Beside c₀ W (cell a.ram regStk :: regStk :: ws) a' b')
      (pushWord a v) (pushWord b v) := by
  refine pairs_bind (hb.load hs) fun stk hstk => ?_
  obtain ⟨_, rfl⟩ := load_eq_ok.mp hstk
  refine hb.store.left.bind fun a' b' h' => ?_
  obtain ⟨hst, hab⟩ := h'
  obtain ⟨_, rfl⟩ := store_eq_ok.mp hst
  refine hab.store.left.mono fun a'' b'' h'' => ?_
  obtain ⟨hst', hab'⟩ := h''
  obtain ⟨_, rfl⟩ := store_eq_ok.mp hst'
  exact ⟨rfl, hab'⟩

theorem Beside.popWord (hb : Beside c₀ W ws a b) (hs : W regStk ∨ regStk ∈ ws)
    (hr : W (cell a.ram regStk + 1) ∨ cell a.ram regStk + 1 ∈ ws) :
    Pairs (fun x y => y.1 = x.1 ∧ (InRam a.ram regStk ∧ x.2.ram = popped a.ram) ∧
        Beside c₀ W (regStk :: ws) x.2 y.2)
      (popWord a) (popWord b) := by
  refine pairs_bind (hb.load hs) fun stk hstk => ?_
  obtain ⟨_, rfl⟩ := load_eq_ok.mp hstk
  refine hb.store.left.bind fun a' b' h' => ?_
  obtain ⟨hst, hab⟩ := h'
  obtain ⟨hin, rfl⟩ := store_eq_ok.mp hst
  refine pairs_bind (hab.load (hr.imp_right (List.mem_cons_of_mem _))) fun v _ => ?_
  exact pairs_pure ⟨rfl, ⟨hin, rfl⟩, hab⟩

theorem Beside.value (hb : Beside c₀ W ws a b) (hk : Known W ws (operandReads a.ram type r)) :
    value h b.ram type r = value h a.ram type r := by
  cases type with
  | literal | data => rfl
  | ram => exact hb.agree r (hk r (by simp [operandReads]))
  | ptr =>
    have hr := hb.agree r (hk r (by simp [operandReads]))
    simp only [Vm.value, hr]
    exact hb.agree _ (hk _ (by simp [operandReads]))

theorem Beside.reaches (hb : Beside c₀ W ws a b) (hk : Known W ws (operandReads a.ram type r)) :
    Reaches b.ram type r ↔ Reaches a.ram type r := by
  cases type with
  | literal | data => exact Iff.rfl
  | ram => exact hb.inRam
  | ptr =>
    have hr := hb.agree r (hk r (by simp [operandReads]))
    simp only [Reaches, hr, hb.inRam]

/-- Both machines read the same operand. -/
theorem Beside.getword {α : Type} {S : α → α → Prop} (hb : Beside c₀ W ws a b)
    (hk : Known W ws (operandReads a.ram type r)) {f g : Word × Chip → Except Fault α}
    (hf : ∀ a' b', a'.ram = a.ram → Beside c₀ W ws a' b' →
      Pairs S (f (Vm.value h a.ram type r, a')) (g (Vm.value h a.ram type r, b'))) :
    Pairs S (getword h a type r >>= f) (getword h b type r >>= g) := by
  by_cases hr : Reaches a.ram type r
  · rw [getword_reaches hr, getword_reaches ((hb.reaches hk).mpr hr), hb.value hk]
    obtain ⟨hfail, hram⟩ := hb.update (fun c => c.failIf (Unloaded h type r)) fun _ _ => rfl
    exact hf _ _ hram hfail
  · rw [getword_unreached hr, getword_unreached (mt (hb.reaches hk).mp hr)]
    exact pairs_error _

/-- Both machines store to the same operand. -/
theorem Beside.setword (hb : Beside c₀ W ws a b) (hk : Known W ws (addressReads type r)) :
    Pairs (Beside c₀ W (operandWrites a.ram type r ++ ws)) (setword a type r v)
      (setword b type r v) := by
  cases type with
  | literal | data =>
    exact pairs_pure (hb.update (fun c => { c with
      state := .fail, stdout := c.stdout ++ "setword fail\n" }) fun _ _ => rfl).1
  | ram => exact hb.store
  | ptr =>
    refine pairs_bind (hb.load (hk r (by simp [addressReads]))) fun p hp => ?_
    obtain ⟨_, rfl⟩ := load_eq_ok.mp hp
    exact hb.store

end Accesses

/-- Two handlers that did the same. -/
def Done (c₀ : Chip) (W : Word → Prop) (ws : List Word) (x y : Chip × Command) : Prop :=
  y.2 = x.2 ∧ Beside c₀ W ws x.1 y.1

section Handlers

variable {h : Host} {c₀ c d : Chip} {W : Word → Prop} {ws : List Word} {pcmd : Command}

theorem unary_beside (hb : Beside c₀ W ws c d) (op : Word → Word)
    (hk : Known W ws (operandReads c.ram (arg0fGet pcmd.flags) pcmd.arg0)) :
    Pairs (Done c₀ W (operandWrites c.ram (arg0fGet pcmd.flags) pcmd.arg0 ++ ws))
      (cmdUnary op h c pcmd) (cmdUnary op h d pcmd) := by
  refine hb.getword hk fun a b hram hab => ?_
  rw [← hram] at hk ⊢
  exact (hab.setword (known_address hk)).bind fun _ _ hdone => pairs_pure ⟨rfl, hdone⟩

theorem binary_beside (hb : Beside c₀ W ws c d) (op : Word → Word → Except Fault Word)
    (hk : Known W ws (operandReads c.ram (arg0fGet pcmd.flags) pcmd.arg0))
    (hk' : Known W ws (operandReads c.ram (arg1fGet pcmd.flags) pcmd.arg1)) :
    Pairs (Done c₀ W (operandWrites c.ram (arg0fGet pcmd.flags) pcmd.arg0 ++ ws))
      (cmdBinary op h c pcmd) (cmdBinary op h d pcmd) := by
  refine hb.getword hk fun a b hram hab => ?_
  rw [← hram] at hk hk' ⊢
  refine hab.getword hk' fun a' b' hram' hab' => ?_
  rw [← hram'] at hk ⊢
  refine pairs_bind rfl fun v _ => ?_
  exact (hab'.setword (known_address hk)).bind fun _ _ hdone => pairs_pure ⟨rfl, hdone⟩

theorem move_beside (hb : Beside c₀ W ws c d)
    (hk : Known W ws (operandReads c.ram (arg1fGet pcmd.flags) pcmd.arg1))
    (hk' : Known W ws (addressReads (arg0fGet pcmd.flags) pcmd.arg0)) :
    Pairs (Done c₀ W (operandWrites c.ram (arg0fGet pcmd.flags) pcmd.arg0 ++ ws))
      (cmdMove h c pcmd) (cmdMove h d pcmd) := by
  refine hb.getword hk fun a b hram hab => ?_
  rw [← hram]
  exact (hab.setword hk').bind fun _ _ hdone => pairs_pure ⟨rfl, hdone⟩

theorem logical_beside (hb : Beside c₀ W ws c d) (decide : Word → Option Bool)
    (hk : Known W ws (operandReads c.ram (arg0fGet pcmd.flags) pcmd.arg0))
    (hk' : decide (operand0 h c pcmd) = none →
      Known W ws (operandReads c.ram (arg1fGet pcmd.flags) pcmd.arg1)) :
    Pairs (Done c₀ W (operandWrites c.ram (arg0fGet pcmd.flags) pcmd.arg0 ++ ws))
      (cmdLogical decide h c pcmd) (cmdLogical decide h d pcmd) := by
  refine hb.getword hk fun a b hram hab => ?_
  change Pairs _ (rightOperand h a pcmd (decide (operand0 h c pcmd)) >>= _)
    (rightOperand h b pcmd (decide (operand0 h c pcmd)) >>= _)
  rw [← hram] at hk hk' ⊢
  cases ho : decide (operand0 h c pcmd) with
  | some v => exact (hab.setword (known_address hk)).bind fun _ _ hdone => pairs_pure ⟨rfl, hdone⟩
  | none =>
    simp only [rightOperand, bind_assoc]
    refine hab.getword (hk' ho) fun a' b' hram' hab' => ?_
    rw [← hram'] at hk ⊢
    exact (hab'.setword (known_address hk)).bind fun _ _ hdone => pairs_pure ⟨rfl, hdone⟩

theorem jmp_beside (hb : Beside c₀ W ws c d)
    (hk : Known W ws (operandReads c.ram (arg0fGet pcmd.flags) pcmd.arg0)) :
    Pairs (Done c₀ W (regPc :: ws)) (cmdJmp h c pcmd) (cmdJmp h d pcmd) := by
  refine hb.getword hk fun a b _ hab => ?_
  exact hab.store.bind fun _ _ hdone => pairs_pure ⟨rfl, hdone⟩

theorem jumpIf_beside (hb : Beside c₀ W ws c d) (test : Word → Bool)
    (hpc : W regPc ∨ regPc ∈ ws)
    (hk : Known W ws (operandReads c.ram (arg0fGet pcmd.flags) pcmd.arg0))
    (hk' : test (operand0 h c pcmd) →
      Known W ws (operandReads c.ram (arg1fGet pcmd.flags) pcmd.arg1)) :
    Pairs (Done c₀ W (regPc :: ws)) (cmdJumpIf test h c pcmd) (cmdJumpIf test h d pcmd) := by
  refine hb.getword hk fun a b hram hab => ?_
  change Pairs _ (jumpIf h a pcmd (test (operand0 h c pcmd)) >>= _)
    (jumpIf h b pcmd (test (operand0 h c pcmd)) >>= _)
  rw [← hram] at hk'
  cases ht : test (operand0 h c pcmd) with
  | false => exact pairs_pure ⟨rfl, hab.also hpc⟩
  | true =>
    simp only [jumpIf, if_true, bind_assoc]
    refine hab.getword (hk' ht) fun a' b' _ hab' => ?_
    exact hab'.store.bind fun _ _ hdone => pairs_pure ⟨rfl, hdone⟩

theorem push_beside (hb : Beside c₀ W ws c d)
    (hk : Known W ws (operandReads (pushing h c.ram) (arg0fGet pcmd.flags) pcmd.arg0))
    (hs : W regStk ∨ regStk ∈ ws) :
    Pairs (Done c₀ W (cell c.ram regStk :: regStk :: ws)) (cmdPush h c pcmd) (cmdPush h d pcmd) := by
  unfold cmdPush
  unfold pushing at hk
  split
  · next hfirst =>
    rw [if_pos hfirst] at hk
    refine pairs_bind (hb.load hs) fun stk hstk => ?_
    obtain ⟨_, rfl⟩ := load_eq_ok.mp hstk
    refine hb.store.left.bind fun a b h₁ => ?_
    obtain ⟨hst, hab⟩ := h₁
    obtain ⟨_, rfl⟩ := store_eq_ok.mp hst
    have hmore : Known W ([regStk] ++ ws) _ := hk.more
    refine hab.getword hmore fun a₂ b₂ _ hab₂ => ?_
    exact hab₂.store.bind fun _ _ hdone => pairs_pure ⟨rfl, hdone⟩
  · next hfirst =>
    rw [if_neg hfirst] at hk
    refine hb.getword hk fun a b hram hab => ?_
    rw [← hram]
    exact (hab.pushWord hs).bind fun _ _ hdone => pairs_pure ⟨rfl, hdone.2⟩

theorem pop_beside (hb : Beside c₀ W ws c d) (hs : W regStk ∨ regStk ∈ ws)
    (hr : W (cell c.ram regStk + 1) ∨ cell c.ram regStk + 1 ∈ ws)
    (hk : Known W ws (addressReads (arg0fGet pcmd.flags) pcmd.arg0)) :
    Pairs (Done c₀ W (operandWrites (popped c.ram) (arg0fGet pcmd.flags) pcmd.arg0 ++ regStk :: ws))
      (cmdPop h c pcmd) (cmdPop h d pcmd) := by
  refine (hb.popWord hs hr).bind fun x y hxy => ?_
  obtain ⟨v, a⟩ := x
  obtain ⟨_, b⟩ := y
  obtain ⟨rfl, ⟨_, hram⟩, hab⟩ := hxy
  rw [← hram]
  have hmore : Known W ([regStk] ++ ws) (addressReads (arg0fGet pcmd.flags) pcmd.arg0) := hk.more
  exact (hab.setword hmore).bind fun _ _ hdone => pairs_pure ⟨rfl, hdone⟩

theorem call_beside (hb : Beside c₀ W ws c d)
    (hk : Known W ws (operandReads c.ram (arg0fGet pcmd.flags) pcmd.arg0))
    (hpc : W regPc ∨ regPc ∈ ws) (hs : W regStk ∨ regStk ∈ ws) (hf : W regFrm ∨ regFrm ∈ ws) :
    Pairs (Done c₀ W (regPc :: regFrm :: cell (pushed c.ram (cell c.ram regPc)) regStk :: regStk ::
        cell c.ram regStk :: regStk :: ws))
      (cmdCall h c pcmd) (cmdCall h d pcmd) := by
  refine hb.getword hk fun a b hram hab => ?_
  rw [← hram]
  refine pairs_bind (hab.load hpc) fun pc hpc => ?_
  obtain ⟨_, rfl⟩ := load_eq_ok.mp hpc
  refine (hab.pushWord hs).bind fun a₁ b₁ h₁ => ?_
  obtain ⟨hram₁, hab₁⟩ := h₁
  rw [← hram₁]
  have hf₁ : W regFrm ∨ regFrm ∈ cell a.ram regStk :: regStk :: ws :=
    hf.imp_right fun hm => List.mem_cons_of_mem _ (List.mem_cons_of_mem _ hm)
  refine pairs_bind (hab₁.load hf₁) fun frm _ => ?_
  refine (hab₁.pushWord (.inr (by simp))).bind fun a₂ b₂ h₂ => ?_
  obtain ⟨_, hab₂⟩ := h₂
  refine pairs_bind (hab₂.load (.inr (by simp))) fun stk _ => ?_
  refine hab₂.store.bind fun a₃ b₃ hab₃ => ?_
  exact hab₃.store.bind fun _ _ hdone => pairs_pure ⟨rfl, hdone⟩

theorem ret_beside (hb : Beside c₀ W ws c d) (hf : W regFrm ∨ regFrm ∈ ws)
    (hr : W (cell c.ram regFrm + 1) ∨ cell c.ram regFrm + 1 ∈ ws)
    (hr' : W (cell c.ram regFrm + 1 + 1) ∨ cell c.ram regFrm + 1 + 1 ∈ ws) :
    Pairs (Done c₀ W (regPc :: regStk :: regFrm :: regStk :: regStk :: ws))
      (cmdRet h c pcmd) (cmdRet h d pcmd) := by
  refine pairs_bind (hb.load hf) fun frm hfrm => ?_
  obtain ⟨_, rfl⟩ := load_eq_ok.mp hfrm
  refine hb.store.left.bind fun a b h₁ => ?_
  obtain ⟨hst, hab⟩ := h₁
  obtain ⟨hin, rfl⟩ := store_eq_ok.mp hst
  have hstk : cell (c.ram.set regStk.toNat (cell c.ram regFrm)) regStk = cell c.ram regFrm :=
    cell_set_self hin
  refine (hab.popWord (.inr (by simp)) ?_).bind fun x y hxy => ?_
  · simp only [hstk]
    exact hr.imp_right (List.mem_cons_of_mem _)
  obtain ⟨_, a₂⟩ := x
  obtain ⟨v, b₂⟩ := y
  obtain ⟨rfl, ⟨hin₂, hram₂⟩, hab₂⟩ := hxy
  refine hab₂.store.left.bind fun a₃ b₃ h₃ => ?_
  obtain ⟨hst₃, hab₃⟩ := h₃
  obtain ⟨_, rfl⟩ := store_eq_ok.mp hst₃
  have hstk₃ : cell (a₂.ram.set regFrm.toNat v) regStk = cell c.ram regFrm + 1 := by
    rw [cell_set_ne (by decide), hram₂, popped, cell_set_self hin₂, hstk]
  refine (hab₃.popWord (.inr (by simp)) ?_).bind fun x y hxy => ?_
  · simp only [hstk₃]
    exact hr'.imp_right fun hm =>
      List.mem_cons_of_mem _ (List.mem_cons_of_mem _ (List.mem_cons_of_mem _ hm))
  obtain ⟨w, a₄⟩ := x
  obtain ⟨_, b₄⟩ := y
  obtain ⟨rfl, _, hab₄⟩ := hxy
  exact hab₄.store.bind fun _ _ hdone => pairs_pure ⟨rfl, hdone⟩

/-- An `initr` that is not the first command. -/
theorem initr_beside (hb : Beside c₀ W ws c d) (hram : c.ram ≠ []) :
    Pairs (Done c₀ W ws) (cmdInitr h c pcmd) (cmdInitr h d pcmd) := by
  have hram' : d.ram ≠ [] := by
    intro hnil
    have hlen := hb.length
    rw [hnil] at hlen
    exact hram (List.length_eq_zero_iff.mp hlen.symm)
  rw [cmdInitr, cmdInitr, if_pos hram, if_pos hram']
  exact pairs_pure ⟨rfl, (hb.update (fun c => { c with state := .fail }) fun _ _ => rfl).1⟩

theorem log_beside (hb : Beside c₀ W ws c d) (text : Word → String)
    (hk : Known W ws (operandReads c.ram (arg0fGet pcmd.flags) pcmd.arg0)) :
    Pairs (Done c₀ W ws) (cmdLog text h c pcmd) (cmdLog text h d pcmd) := by
  refine hb.getword hk fun a b _ hab => ?_
  exact pairs_pure ⟨rfl, (hab.update (fun c => { c with stderr := c.stderr ++ text _ })
    fun _ _ => rfl).1⟩

theorem logsLoop_beside (k : Nat) (hb : Beside c₀ W ws c d)
    (hk : Known W ws (logsReads h c.ram (arg0fGet pcmd.flags) k pcmd.arg0)) :
    Pairs (Done c₀ W ws) (logsLoop h k c pcmd) (logsLoop h k d pcmd) := by
  induction k generalizing c d pcmd with
  | zero => exact pairs_error _
  | succ k ih =>
    obtain ⟨hcell, hrest⟩ := known_append.mp hk
    refine hb.getword hcell fun a b hram hab => ?_
    by_cases hv : value h c.ram (arg0fGet pcmd.flags) pcmd.arg0 = 0
    · simp only [hv, if_true]
      exact pairs_pure ⟨rfl, hab⟩
    · simp only [hv, if_false] at hrest ⊢
      obtain ⟨hprint, hram'⟩ := hab.update (fun c => { c with stderr := c.stderr ++ charText _ })
        fun _ _ => rfl
      exact ih hprint (by rw [hram', hram]; exact hrest)

theorem strcpyLoop_beside (k : Nat) (hb : Beside c₀ W ws c d)
    (hk : Known W ws (strcpyReads h (arg0fGet pcmd.flags) k c.ram pcmd.arg0 pcmd.arg1)) :
    Pairs (Done c₀ W (strcpyWrites h (arg0fGet pcmd.flags) k c.ram pcmd.arg0 pcmd.arg1 ++ ws))
      (strcpyLoop h k c pcmd) (strcpyLoop h k d pcmd) := by
  induction k generalizing c d ws pcmd with
  | zero => exact pairs_error _
  | succ k ih =>
    obtain ⟨hcell, hrest⟩ := known_append.mp hk
    obtain ⟨haddr, hrest⟩ := known_append.mp hrest
    refine hb.getword hcell fun a b hram hab => ?_
    refine (hab.setword haddr).left.bind fun a' b' hset => ?_
    obtain ⟨hset, hab'⟩ := hset
    rw [strcpyWrites]
    by_cases hv : value h c.ram (arg0fGet pcmd.flags) pcmd.arg1 = 0
    · simp only [hv, if_true, List.append_nil]
      rw [hram] at hab'
      exact pairs_pure ⟨rfl, hab'⟩
    · simp only [hv, if_false] at hrest ⊢
      have hcopy : a'.ram = copyStep h c.ram (arg0fGet pcmd.flags) pcmd.arg0 pcmd.arg1 := by
        rw [setword_eq hset, ← hram]
        exact copyStep_put
      rw [hram] at hab'
      rw [← hcopy] at hrest ⊢
      refine (ih hab' hrest.more).mono fun x y hxy => ⟨hxy.1, hxy.2.congr fun z => ?_⟩
      simp only [List.mem_append]
      tauto

/-- Two machines that agree on the cells a command reads. -/
theorem commands_beside (hb : Beside c W [] c d) (hram : c.ram ≠ [])
    (hk : ∀ x ∈ reads h c pcmd, W x) :
    Pairs (Done c W (writes h c pcmd)) (commands (.ofCode pcmd.cmd) h c pcmd)
      (commands (.ofCode pcmd.cmd) h d pcmd) := by
  have hknown : Known W [] (reads h c pcmd) := fun x hx => .inl (hk x hx)
  obtain ⟨hpc, hknown⟩ := known_cons.mp hknown
  -- what a handler wrote, the PC being one of the cells anyway
  have hall : ∀ ws, (∀ z, z ∈ regPc :: ws ↔ z ∈ writes h c pcmd) →
      ∀ x y, Done c W ws x y → Done c W (writes h c pcmd) x y := fun ws hws x y hxy =>
    ⟨hxy.1, (hxy.2.also (hpc.imp_right fun hm => absurd hm List.not_mem_nil)).congr hws⟩
  cases hop : Opcode.ofCode pcmd.cmd with
  | nop =>
    exact pairs_pure (hall [] (by simp [writes, hop]) _ _ ⟨rfl, hb⟩)
  | logln =>
    exact pairs_pure (hall [] (by simp [writes, hop]) _ _ ⟨rfl,
      (hb.update (fun c => { c with stderr := c.stderr ++ "\n" }) fun _ _ => rfl).1⟩)
  | move =>
    simp only [hop, known_append] at hknown
    exact (move_beside hb hknown.1 hknown.2).mono (hall _ (by simp [writes, hop]))
  | inc | dec | not | bnot =>
    simp only [hop, known_append] at hknown
    simp only [commands, cmdInc, cmdDec, cmdNot, cmdBnot]
    exact (unary_beside hb _ hknown.1).mono (hall _ (by simp [writes, hop]))
  | sum | dif | mul | div | mod | or | xor | and | shl | shr | rol | ror =>
    simp only [hop, known_append, looksAt, if_true] at hknown
    simp only [commands, cmdSum, cmdDif, cmdMul, cmdDiv, cmdMod, cmdOr, cmdXor, cmdAnd, cmdShl,
      cmdShr, cmdRol, cmdRor]
    exact (binary_beside hb _ hknown.1 hknown.2).mono (hall _ (by simp [writes, hop]))
  | bor | band =>
    simp only [hop, known_append] at hknown
    simp only [commands, cmdBor, cmdBand]
    refine (logical_beside hb _ hknown.1 fun hnone => ?_).mono (hall _ (by simp [writes, hop]))
    have hlooks : looksAt (.ofCode pcmd.cmd) (operand0 h c pcmd) = true := by
      rw [hop]
      simpa [looksAt] using hnone
    rw [hop] at hlooks
    simpa only [hlooks, if_true] using hknown.2
  | jmp =>
    simp only [hop, known_append] at hknown
    exact (jmp_beside hb hknown.1).mono (hall _ (by simp [writes, hop]))
  | ift | iff =>
    simp only [hop, known_append] at hknown
    simp only [commands, cmdIft, cmdIff]
    refine (jumpIf_beside hb _ hpc hknown.1 fun ht => ?_).mono (hall _ (by simp [writes, hop]))
    have hlooks : looksAt (.ofCode pcmd.cmd) (operand0 h c pcmd) = true := by
      rw [hop]
      exact ht
    rw [hop] at hlooks
    simpa only [hlooks, if_true] using hknown.2
  | call =>
    simp only [hop, known_append, known_cons] at hknown
    obtain ⟨hoperand, hstk, hfrm, _⟩ := hknown
    refine (call_beside hb hoperand hpc hstk hfrm).mono (hall _ fun z => ?_)
    simp only [writes, hop, List.mem_cons, List.not_mem_nil, or_false]
    tauto
  | ret =>
    simp only [hop, known_cons] at hknown
    obtain ⟨hfrm, hslot, hslot', _⟩ := hknown
    refine (ret_beside (h := h) hb hfrm hslot hslot').mono (hall _ fun z => ?_)
    simp only [writes, hop, List.mem_cons, List.not_mem_nil, or_false]
    tauto
  | push =>
    simp only [hop, known_append, known_cons] at hknown
    refine (push_beside hb hknown.1 hknown.2.1).mono (hall _ fun z => ?_)
    simp only [writes, hop, List.mem_cons, List.not_mem_nil, or_false]
    tauto
  | pop =>
    simp only [hop, known_cons] at hknown
    obtain ⟨hstk, hslot, haddr⟩ := hknown
    refine (pop_beside (h := h) hb hstk hslot haddr).mono (hall _ fun z => ?_)
    simp only [writes, hop, List.mem_cons, List.mem_append, List.not_mem_nil, or_false]
    tauto
  | initr => exact (initr_beside hb hram).mono (hall _ (by simp [writes, hop]))
  | logi | logu | logc =>
    simp only [hop] at hknown
    simp only [commands, cmdLogi, cmdLogu, cmdLogc]
    exact (log_beside hb _ hknown).mono (hall _ (by simp [writes, hop]))
  | logs =>
    simp only [hop, -Nat.reducePow] at hknown
    exact (logsLoop_beside (2 ^ 32) hb hknown).mono (hall _ (by simp [writes, hop]))
  | strcpy =>
    simp only [hop, -Nat.reducePow] at hknown
    exact (strcpyLoop_beside (2 ^ 32) hb hknown).mono (hall _ (by simp [writes, hop]))

/-- And so a dispatch. -/
theorem execute_beside (hb : Beside c W [] c d) (hram : c.ram ≠ [])
    (hk : ∀ x ∈ reads h c pcmd, W x) :
    Pairs (Done c W (writes h c pcmd)) (execute h c pcmd) (execute h d pcmd) := by
  have hpc : regPc ∈ writes h c pcmd := List.mem_cons_self
  refine (commands_beside hb hram hk).bind fun x y hxy => ?_
  obtain ⟨a, q⟩ := x
  obtain ⟨b, _⟩ := y
  obtain ⟨rfl, hab⟩ := hxy
  refine pairs_bind (hab.load (.inr hpc)) fun pc _ => ?_
  refine hab.store.bind fun a' b' hab' => ?_
  refine pairs_pure ⟨rfl, hab'.congr fun z => ?_⟩
  rw [List.mem_cons, or_iff_right_of_imp]
  rintro rfl
  exact hpc

/-- A command changes no cell but those it writes, and not the size of RAM. -/
theorem execute_kept {x : Chip × Command} (hram : c.ram ≠ []) (he : execute h c pcmd = .ok x) :
    x.1.ram.length = c.ram.length ∧ ∀ z, z ∉ writes h c pcmd → cell x.1.ram z = cell c.ram z := by
  have hself : Beside c (fun _ => True) [] c c := beside_start ⟨c.ram, rfl⟩ rfl fun _ _ => rfl
  obtain ⟨_, _, hdone⟩ := (execute_beside hself hram fun _ _ => trivial).ok he
  exact ⟨hdone.2.size, hdone.2.kept⟩

end Handlers

end Vm
