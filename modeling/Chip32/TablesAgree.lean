import Chip32.Numbers
import Chip32.RbhashMap
import Chip32.Rejection
import Chip32.Tables

/-!
# The tables stand for the lists

At every point of a build the table of declarations stands for the list of declared names,
as long as there are fewer of them than a table can grow for. So the assembler with its
tables does what it does with lists, and no insertion ends in `rbhash fail`.
-/
namespace Asm

open Runs Vm Rbhash

def Asmchip32.withDeclare (c : Asmchip32) (d : List Declared) : Asmchip32 := { c with declare := d }

def Stop.withDeclare (d : List Declared) : Stop Asmchip32 → Stop Asmchip32
  | .fault f => .fault f
  | .fail c => .fail (c.withDeclare d)

section Blind

variable (c : Asmchip32) (d : List Declared) (cmd : Lexcmd)

theorem tokenAt_withDeclare (i : Nat) :
    tokenAt cmd i = mapBoth (Stop.withDeclare d) id (tokenAt cmd i) := by
  unfold tokenAt
  cases cmd[i]? <;> rfl

theorem complainAt_withDeclare {α β : Type} (f : α → β) (tk : Lextoken) (error : String) :
    complainAt (c.withDeclare d) tk error =
      mapBoth (Stop.withDeclare d) f (complainAt c tk error) := rfl

theorem need_withDeclare (ic : Nat) (error : String) :
    need (c.withDeclare d) cmd ic error =
      mapBoth (Stop.withDeclare d) id (need c cmd ic error) := by
  unfold need
  cases cmd[ic]? with
  | some tk => rfl
  | none =>
    refine (congrArg (· >>= _) (tokenAt_withDeclare d cmd (ic - 1))).trans (mapBoth_bind fun tk => ?_)
    exact complainAt_withDeclare c d id tk error

theorem lvalueMode_withDeclare (ic : Nat) (flags : BitVec 8) :
    lvalueMode (c.withDeclare d) cmd ic flags =
      mapBoth (Stop.withDeclare d) id (lvalueMode c cmd ic flags) := by
  unfold lvalueMode
  rw [need_withDeclare]
  refine mapBoth_bind fun tk => ?_
  obtain ⟨line, type, start, stop⟩ := tk
  cases type <;> rfl

theorem rvalueMode_withDeclare (ic : Nat) (flags : BitVec 8) (idarg : Bool) :
    rvalueMode (c.withDeclare d) cmd ic flags idarg =
      mapBoth (Stop.withDeclare d) id (rvalueMode c cmd ic flags idarg) := by
  unfold rvalueMode
  rw [need_withDeclare]
  refine mapBoth_bind fun tk => ?_
  obtain ⟨line, type, start, stop⟩ := tk
  cases type <;> rfl

theorem declareAddr_withDeclare (tk place : Lextoken) :
    declareAddr (c.withDeclare d) tk place =
      mapBoth (Stop.withDeclare d) id (declareAddr c tk place) := by
  unfold declareAddr
  cases place.type <;> rfl

theorem declareSize_withDeclare (tk : Lextoken) :
    declareSize (c.withDeclare d) cmd tk =
      mapBoth (Stop.withDeclare d) id (declareSize c cmd tk) := by
  unfold declareSize
  cases tk.type with
  | literalNum =>
    refine (congrArg (· >>= _) (tokenAt_withDeclare d cmd 4)).trans (mapBoth_bind fun tk => ?_)
    rfl
  | _ => rfl

theorem pushString_withDeclare (addr : Word) (j : Nat) (s : List Char) :
    pushString addr j s (c.withDeclare d) = (pushString addr j s c).withDeclare d := by
  induction s generalizing c j with
  | nil => rfl
  | cons ch s ih => exact ih (pushMove c (modeBits .ram) (addr + BitVec.ofNat 32 j) (charWord ch)) (j + 1)

theorem advance_withDeclare (dauto : Bool) (n : BitVec 64) :
    (c.withDeclare d).advance dauto n = (c.advance dauto n).withDeclare d := by
  cases dauto <;> rfl

theorem pushValues_withDeclare (addr : Word) (size : Int) (j : Nat) (tks : List Lextoken) :
    pushValues addr size j tks (c.withDeclare d) =
      mapBoth (Stop.withDeclare d) (·.withDeclare d) (pushValues addr size j tks c) := by
  induction tks generalizing c j with
  | nil =>
    unfold pushValues
    split_ifs <;> rfl
  | cons tk tks ih =>
    simp only [pushValues]
    by_cases hsize : size ≤ j
    · rw [if_pos hsize, if_pos hsize]
      rfl
    · rw [if_neg hsize, if_neg hsize]
      have hstep : ∀ v : Word, (if tks = []
          then complainAt (pushMove (c.withDeclare d) (modeBits .ram) (addr + .ofNat 32 j) v) tk
            "missing argument"
          else pushValues addr size (j + 1) tks
            (pushMove (c.withDeclare d) (modeBits .ram) (addr + .ofNat 32 j) v)) =
          mapBoth (Stop.withDeclare d) (·.withDeclare d) (if tks = []
          then complainAt (pushMove c (modeBits .ram) (addr + .ofNat 32 j) v) tk "missing argument"
          else pushValues addr size (j + 1) tks
            (pushMove c (modeBits .ram) (addr + .ofNat 32 j) v)) := by
        intro v
        by_cases htks : tks = []
        · rw [if_pos htks, if_pos htks]
          rfl
        · rw [if_neg htks, if_neg htks]
          exact ih (pushMove c (modeBits .ram) (addr + BitVec.ofNat 32 j) v) (j + 1)
      cases htype : tk.type with
      | literalNum => simpa only [pure_ok, ok_bind] using hstep (number tk.start)
      | literalChar => simpa only [pure_ok, ok_bind] using hstep (charWord (deref tk.start.tail))
      | _ => rfl

theorem initialise_withDeclare (addr : Word) (dauto : Bool) (sauto : BitVec 64) (tk : Lextoken) :
    initialise (c.withDeclare d) cmd addr dauto sauto tk =
      mapBoth (Stop.withDeclare d) (·.withDeclare d) (initialise c cmd addr dauto sauto tk) := by
  have hvalues : ∀ n : BitVec 64, (do
      let c ← pushValues addr n.toInt 0 (cmd.drop 4) (c.withDeclare d)
      .ok (c.advance dauto n)) = mapBoth (Stop.withDeclare d) (·.withDeclare d) (do
      let c ← pushValues addr n.toInt 0 (cmd.drop 4) c
      .ok (c.advance dauto n)) := by
    intro n
    rw [pushValues_withDeclare]
    exact mapBoth_bind fun c => congrArg Except.ok (advance_withDeclare c d dauto n)
  obtain ⟨line, type, start, stop⟩ := tk
  cases type with
  | literalNum | literalChar => exact hvalues _
  | literalStr =>
    simp only [initialise]
    split_ifs
    · rfl
    all_goals
      rw [pushString_withDeclare]
      exact congrArg Except.ok (advance_withDeclare (pushMove _ _ _ _) d dauto _)
  | _ => rfl

theorem declareStorage_withDeclare (addr : Word) (dauto : Bool) :
    declareStorage (c.withDeclare d) cmd addr dauto =
      mapBoth (Stop.withDeclare d) (·.withDeclare d) (declareStorage c cmd addr dauto) := by
  unfold declareStorage
  cases cmd[3]? with
  | none => exact congrArg Except.ok (advance_withDeclare c d dauto 1)
  | some tk =>
    refine (congrArg (· >>= _) (declareSize_withDeclare c d cmd tk)).trans
      (mapBoth_bind fun sauto => ?_)
    cases cmd[4]? with
    | some init => exact initialise_withDeclare c d cmd addr dauto sauto init
    | none =>
      by_cases hz : sauto = 0
      · simp only [id, hz, if_true]
        rfl
      · simp only [id, hz, if_false]
        exact congrArg Except.ok (advance_withDeclare c d dauto sauto)

end Blind

/-- The names C can hash, and tell from the end of a string. -/
def Plain (name : List Char) : Prop := name ≠ [] ∧ ∀ ch ∈ name, 0 < ch.toNat ∧ ch.toNat < 256

instance (name : List Char) : Decidable (Plain name) :=
  have : Decidable (∀ ch ∈ name, 0 < ch.toNat ∧ ch.toNat < 256) := List.decidableBAll _ name
  inferInstanceAs (Decidable (_ ∧ _))

theorem key_ne_nil {x : List Char} (hx : Plain x) : key x ≠ [] := by
  simpa [key] using hx.1

theorem key_inj {x y : List Char} (hx : Plain x) (hy : Plain y) : key x = key y ↔ x = y := by
  refine ⟨fun h => ?_, fun h => h ▸ rfl⟩
  replace hx := hx.2
  replace hy := hy.2
  induction x generalizing y with
  | nil =>
    cases y with
    | nil => rfl
    | cons b y => cases h
  | cons a x ih =>
    cases y with
    | nil => cases h
    | cons b y =>
      obtain ⟨hab, hrest⟩ := List.cons.inj h
      obtain ⟨ha, hx⟩ := List.forall_mem_cons.mp hx
      obtain ⟨hb, hy⟩ := List.forall_mem_cons.mp hy
      have hnat := congrArg BitVec.toNat hab
      simp only [BitVec.toNat_ofNat, Nat.mod_eq_of_lt ha.2, Nat.mod_eq_of_lt hb.2] at hnat
      rw [Char.toNat_inj.mp hnat, ih hrest hx hy]

theorem key_valid {x : List Char} (hx : Plain x) (hlen : x.length ≤ rbhKey) :
    ValidKey rbhKey (key x) := by
  cases x with
  | nil => exact absurd rfl hx.1
  | cons a x =>
    obtain ⟨hpos, hlt⟩ := hx.2 a (by simp)
    refine ⟨fun h => ?_, by simpa [key] using hlen⟩
    have hnat := congrArg BitVec.toNat h
    simp only [key, List.map_cons, List.getD_cons_zero, BitVec.toNat_ofNat, Nat.mod_eq_of_lt hlt] at hnat
    exact absurd hnat (Nat.ne_of_gt hpos)

theorem plain_of_ident (i : Grammar.Ident) : Plain i.text := by
  have hall : ∀ ch ∈ i.text, ch.isAlphanum ∨ ch = '_' := by
    intro ch hch
    rcases List.mem_cons.mp hch with rfl | hch
    · exact i.head_ok.imp_left fun h => by simp [Char.isAlphanum, h]
    · exact i.tail_ok ch hch
  refine ⟨List.cons_ne_nil _ _, fun ch hch => ?_⟩
  rcases hall ch hch with h | rfl
  · simp only [Char.isAlphanum, Bool.or_eq_true, isAlpha_iff_toNat, isDigit_iff_toNat] at h
    omega
  · decide

theorem plain_of_spells {type : Tktype} {t : List Char} (h : Spells type t)
    (ht : type = .name ∨ type = .label) : Plain t := by
  cases h with
  | label i => exact plain_of_ident i
  | sigil s => cases s <;> simp [Grammar.Sigil.type] at ht
  | atom a =>
    cases a with
    | name i => exact plain_of_ident i
    | _ => simp [Grammar.Atom.type] at ht

/-- What the tables of declarations stand for. -/
def declared (d : List Declared) (k : List Rbhash.Byte) : Option Declared :=
  d.find? fun x => key x.name = k

theorem declared_key {d : List Declared} (hd : ∀ x ∈ d, Plain x.name) {name : List Char}
    (hn : Plain name) : declared d (key name) = declareFind d name := by
  induction d with
  | nil => rfl
  | cons x d ih =>
    obtain ⟨hx, hd⟩ := List.forall_mem_cons.mp hd
    have hiff : (key x.name = key name) ↔ (x.name = name) := key_inj hx hn
    simp only [declared, declareFind, List.find?_cons, hiff] at ih ⊢
    rw [ih hd]

theorem declared_snoc {d : List Declared} {dec : Declared} (hnew : declared d (key dec.name) = none) :
    declared (d ++ [dec]) = Function.update (declared d) (key dec.name) (some dec) := by
  funext k
  rw [declared, List.find?_append]
  by_cases hk : k = key dec.name
  · subst hk
    rw [Function.update_self]
    change (declared d (key dec.name)).or _ = _
    simp [hnew]
  · rw [Function.update_of_ne hk]
    change (declared d k).or _ = _
    simp [Ne.symm hk]

/-- A key the map has not is added. -/
theorem addUnique_new {δ : Type} {t : Hash δ} {m : List Rbhash.Byte → Option δ} (h : Holds t m)
    (hroom : t.count < t.size) {k : List Rbhash.Byte} (hv : ValidKey t.keySize k) (hm : m k = none)
    (hs : SizesFit t) (d : δ) (el : Element δ) (stale : Nat → Element δ) :
    ∃ u, addUnique t k (some d) ⟨some el, some stale⟩ = .ok (0, u) ∧
      Holds u (Function.update m k (some d)) ∧ SameKind t u ∧ (t.min ≠ 0 → u.count < u.size) ∧
      u.count = t.count + 1 := by
  obtain ⟨⟨r, u⟩, hret⟩ := addUnique_total d el stale h hroom hv hs
  obtain ⟨rfl, hrest⟩ := addUnique_absent h hv hm hs hret
  exact ⟨u, hret, hrest⟩

/-- `rbhash_add` of a key the map has not. -/
theorem add_new {δ : Type} {t : Hash δ} {m : List Rbhash.Byte → Option δ} (h : Holds t m)
    (hroom : t.count < t.size) {k : List Rbhash.Byte} (hv : ValidKey t.keySize k) (hm : m k = none)
    (hs : SizesFit t) (d : δ) (el : Element δ) (stale : Nat → Element δ) :
    ∃ u, add t k (some d) ⟨some el, some stale⟩ = .ok (0, u) ∧
      Holds u (Function.update m k (some d)) ∧ SameKind t u ∧ (t.min ≠ 0 → u.count < u.size) ∧
      u.count = t.count + 1 := by
  have hnone : ¬ (find t k).isSome = true := by
    rw [find_eq h hv.ne_nil, hm]
    exact Bool.false_ne_true
  have hadd := addUnique_new h hroom hv hm hs d el stale
  rwa [addUnique, if_neg hnone] at hadd

/-- A key that is too long is refused. -/
theorem addUnique_long {δ : Type} {t : Hash δ} {k : List Rbhash.Byte} (hk : t.keySize < k.length)
    (d : Option δ) (a : Alloc δ) : addUnique t k d a = .ok (-1, t) := by
  unfold addUnique
  split_ifs
  · rfl
  · exact addHash_refused (.inl hk)

theorem sizesFit_of_few {δ : Type} {t : Hash δ} (hmin : t.min = rbhMin) (hc : t.count < 2 ^ 29) :
    SizesFit t := by
  intro _ hgrow
  rw [spare, hmin, rbhMin] at hgrow
  rw [spare, hmin, rbhMin]
  omega

/-- The tables are those of an assembler with at most `n` declarations. -/
structure Stands (n : Nat) (c : Asmchip32) (t : Tabled) : Prop where
  asm : t.asm.withDeclare c.declare = c
  holds : Holds t.declare (declared c.declare)
  keySize : t.declare.keySize = rbhKey
  min : t.declare.min = rbhMin
  room : t.declare.count < t.declare.size
  count : t.declare.count = c.declare.length
  few : c.declare.length ≤ n
  plain : ∀ x ∈ c.declare, Plain x.name
  actions : ∀ name, Plain name → Rbhash.find t.actions (key name) = findAction name

/-- The same result: a value, a fault or a failure. -/
inductive Matches {α β : Type} (n : Nat) (R : α → β → Prop) : Build α → TableBuild β → Prop
  | ok {a : α} {b : β} : R a b → Matches n R (.ok a) (.ok b)
  | fault (f : Asm.Fault) : Matches n R (.error (.fault f)) (.error (.fault f))
  | fail {c : Asmchip32} {t : Tabled} : Stands n c t →
      Matches n R (.error (.fail c)) (.error (.fail t))

section Relation

variable {α α' β β' : Type} {n m : Nat} {c : Asmchip32} {t : Tabled}

theorem Stands.mono (h : Stands n c t) (hnm : n ≤ m) : Stands m c t :=
  { h with few := Nat.le_trans h.few hnm }

theorem Stands.withAsm (h : Stands n c t) {asm : Asmchip32} :
    Stands n (asm.withDeclare c.declare) (t.withAsm asm) where
  asm := rfl
  holds := h.holds
  keySize := h.keySize
  min := h.min
  room := h.room
  count := h.count
  few := h.few
  plain := h.plain
  actions := h.actions

theorem Matches.bind {R : α → β → Prop} {S : α' → β' → Prop} {x : Build α} {y : TableBuild β}
    {f : α → Build α'} {g : β → TableBuild β'} (hx : Matches n R x y)
    (hf : ∀ a b, x = .ok a → R a b → Matches n S (f a) (g b)) : Matches n S (x >>= f) (y >>= g) := by
  cases hx with
  | ok h => exact hf _ _ rfl h
  | fault f => exact .fault f
  | fail h => exact .fail h

theorem Matches.mono {R : α → β → Prop} {x : Build α} {y : TableBuild β} (hx : Matches n R x y)
    (hnm : n ≤ m) : Matches m R x y := by
  cases hx with
  | ok h => exact .ok h
  | fault f => exact .fault f
  | fail h => exact .fail (h.mono hnm)

theorem Matches.imp {R S : α → β → Prop} {x : Build α} {y : TableBuild β} (hx : Matches n R x y)
    (hRS : ∀ a b, R a b → S a b) : Matches n S x y := by
  cases hx with
  | ok h => exact .ok (hRS _ _ h)
  | fault f => exact .fault f
  | fail h => exact .fail h

/-- A call that looks at no table gives the same with tables and with lists. -/
theorem Stands.ofAsm (h : Stands n c t) {x : Build α} {y : Build β} {f : β → α}
    (hx : x = mapBoth (Stop.withDeclare c.declare) f y) :
    Matches n (fun a b => a = f b) x (t.ofAsm y) := by
  subst hx
  cases y with
  | ok b => exact .ok rfl
  | error e =>
    cases e with
    | fault e => exact .fault e
    | fail d => exact .fail h.withAsm

theorem Stands.tokenAt (h : Stands n c t) (cmd : Lexcmd) (i : Nat) :
    Matches n Eq (Asm.tokenAt cmd i) (t.ofAsm (Asm.tokenAt cmd i)) :=
  h.ofAsm (tokenAt_withDeclare c.declare cmd i)

theorem Stands.complained (h : Stands n c t) (tk : Lextoken) (error : String) :
    Stands n (c.complainAt tk error) (t.withAsm (t.asm.complainAt tk error)) := by
  have hasm : c.complainAt tk error = (t.asm.complainAt tk error).withDeclare c.declare := by
    conv_lhs => rw [← h.asm]
    rfl
  rw [hasm]
  exact h.withAsm

theorem Stands.complainAt (h : Stands n c t) {R : α → β → Prop} (tk : Lextoken) (error : String) :
    Matches n R (Asm.complainAt c tk error) (t.ofAsm (Asm.complainAt t.asm tk error)) :=
  .fail (h.complained tk error)

theorem Stands.need (h : Stands n c t) (cmd : Lexcmd) (ic : Nat) (error : String) :
    Matches n Eq (Asm.need c cmd ic error) (t.ofAsm (Asm.need t.asm cmd ic error)) := by
  refine h.ofAsm (f := id) ?_
  conv_lhs => rw [← h.asm]
  exact need_withDeclare t.asm c.declare cmd ic error

/-- A lookup. -/
theorem Stands.find (h : Stands n c t) {name : List Char} (hn : Plain name) :
    t.declareFind name = Asm.declareFind c.declare name := by
  rw [Tabled.declareFind, find_eq h.holds (key_ne_nil hn), declared_key h.plain hn]

/-- An insertion. -/
theorem Stands.add (mem : Memory) (h : Stands n c t) (hn : n < 2 ^ 29) (dec : Declared)
    (hdec : Plain dec.name) :
    match Asm.declareAdd c.declare dec with
    | none => Tabled.declareAdd mem t dec = .ok (-1, t)
    | some d => ∃ u, Tabled.declareAdd mem t dec = .ok (0, u) ∧ u.asm = t.asm ∧
        Stands (n + 1) (c.withDeclare d) u := by
  have hfind := declared_key h.plain hdec
  rw [Asm.declareAdd]
  by_cases hold : (Asm.declareFind c.declare dec.name).isSome
  · obtain ⟨d, hd⟩ := Option.isSome_iff_exists.mp hold
    rw [if_pos (.inl hold)]
    simp only [Tabled.declareAdd, addUnique_present h.holds (key_ne_nil hdec) (hfind.trans hd)]
    rfl
  · by_cases hlong : rbhKey < dec.name.length
    · rw [if_pos (.inr hlong)]
      have hlen : t.declare.keySize < (key dec.name).length := by
        rw [h.keySize]
        simpa [key] using hlong
      simp only [Tabled.declareAdd, addUnique_long hlen]
      rfl
    · rw [if_neg (not_or.mpr ⟨hold, hlong⟩)]
      have hnone : declared c.declare (key dec.name) = none := by
        rw [hfind]
        exact Option.not_isSome_iff_eq_none.mp hold
      have hv : ValidKey t.declare.keySize (key dec.name) := by
        rw [h.keySize]
        exact key_valid hdec (Nat.not_lt.mp hlong)
      have hcount := h.count
      have hfew := h.few
      obtain ⟨u, hadd, hholds, hkind, hroom, hcount'⟩ := addUnique_new h.holds h.room hv hnone
        (sizesFit_of_few h.min (by omega)) dec (mem.declare.el t.declare.count)
        (mem.declare.newtable t.declare.count)
      have hcall : Tabled.declareAdd mem t dec = .ok (0, { t with declare := u }) := by
        simp only [Tabled.declareAdd, Blocks.alloc, hadd]
        rfl
      refine ⟨_, hcall, rfl, ?_⟩
      exact {
        asm := by
          have hasm := h.asm
          rw [← hasm]
          rfl
        holds := by
          have hsnoc := declared_snoc hnone
          change Holds u (declared (c.declare ++ [dec]))
          rw [hsnoc]
          exact hholds
        keySize := hkind.2.1.trans h.keySize
        min := hkind.2.2.1.trans h.min
        room := hroom (by rw [h.min]; decide)
        count := by
          change u.count = (c.declare ++ [dec]).length
          rw [hcount', hcount, List.length_append, List.length_singleton]
        few := by
          change (c.declare ++ [dec]).length ≤ n + 1
          rw [List.length_append, List.length_singleton]
          omega
        plain := by
          intro x hx
          rcases List.mem_append.mp hx with hx | hx
          · exact h.plain x hx
          · rw [List.mem_singleton.mp hx]
            exact hdec
        actions := h.actions }

end Relation

/-- The line of a command, by the lexer's grammar. -/
def NamesPlain (cmd : Lexcmd) : Prop := ∃ w : Grammar.Cmd, shapes cmd = w.tokens

section Parser

variable {n : Nat} {c : Asmchip32} {t : Tabled} {cmd : Lexcmd} (mem : Memory)

theorem NamesPlain.plain (hcmd : NamesPlain cmd) {i : Nat} {tk : Lextoken} (htk : cmd[i]? = some tk)
    (ht : tk.type = .name ∨ tk.type = .label) : Plain tk.text := by
  obtain ⟨w, hw⟩ := hcmd
  refine plain_of_spells (spells_of_mem (w := w) ?_) ht
  rw [← hw]
  exact List.mem_map_of_mem (List.mem_of_getElem? htk)

/-- The command name and the labels in front of it are names. -/
theorem NamesPlain.command (hcmd : NamesPlain cmd) {tk : Lextoken} (htk : commandName cmd = .ok tk) :
    Plain tk.text := by
  obtain ⟨w, hw⟩ := hcmd
  rw [commandName_ok (wellLexed_of_shapes hw).ne_nil] at htk
  have hshape := congrArg (fun l => l[if (labelOf cmd).isSome then 1 else 0]?) hw
  simp only [shapes, List.getElem?_map, htk, Option.map_some, Grammar.Cmd.tokens] at hshape
  cases hl : w.labels with
  | nil =>
    have hnone : labelOf cmd = none := by
      cases cmd with
      | nil => rfl
      | cons tk₀ cmd =>
        have hhead := congrArg List.head? hw
        simp only [shapes, Grammar.Cmd.tokens, hl, List.map_cons, List.map_nil, List.nil_append,
          List.head?_cons, Option.some.injEq, Prod.mk.injEq] at hhead
        simp [labelOf, hhead.1]
    simp only [hnone, hl, List.map_nil, List.nil_append, Option.isSome_none, Bool.false_eq_true,
      if_false, List.getElem?_cons_zero, Option.some.injEq, Prod.mk.injEq] at hshape
    rw [hshape.2]
    exact plain_of_ident w.name
  | cons i is =>
    rw [hl] at hshape
    have hmem : ∀ k ≤ 1, ∀ x, ((i :: is).map (fun i : Grammar.Ident => (Tktype.label, i.text)) ++
        (Tktype.name, w.name.text) :: w.args.flatMap Grammar.Arg.tokens)[k]? = some x →
        Plain x.2 := by
      intro k hk x hx
      cases k with
      | zero =>
        cases hx
        exact plain_of_ident i
      | succ k =>
        obtain rfl : k = 0 := by omega
        cases is with
        | nil =>
          cases hx
          exact plain_of_ident w.name
        | cons j is =>
          cases hx
          exact plain_of_ident j
    exact hmem _ (by split_ifs <;> omega) _ hshape.symm

theorem Stands.parseLabel (h : Stands n c t) (hn : n < 2 ^ 29) (hcmd : NamesPlain cmd) :
    Matches (n + 1) (fun a b => a.1 = b.1 ∧ Stands (n + 1) a.2 b.2) (Asm.parseLabel c cmd)
      (Tabled.parseLabel mem t cmd) := by
  refine ((h.tokenAt cmd 0).mono (Nat.le_succ n)).bind fun tk _ htk heq => ?_
  subst heq
  by_cases hl : tk.type = .label
  · simp only [hl, ne_eq, not_true_eq_false, if_false]
    have hdec := hcmd.plain (tokenAt_ok.mp htk) (.inr hl)
    have hcount : t.asm.vcmd = c.vcmd := by
      rw [← h.asm]
      rfl
    have hadd := h.add mem hn ⟨.label, BitVec.ofNat 32 c.vcmd.length, tk.text⟩ hdec
    rw [hcount]
    cases hd : declareAdd c.declare ⟨.label, BitVec.ofNat 32 c.vcmd.length, tk.text⟩ with
    | none =>
      rw [hd] at hadd
      simp only at hadd
      rw [hadd]
      simp only [ok_bind]
      exact .ok ⟨rfl, (h.complained tk _).mono (Nat.le_succ n)⟩
    | some d =>
      rw [hd] at hadd
      obtain ⟨u, hu, hasm, hstands⟩ := hadd
      rw [hu]
      exact .ok ⟨rfl, hstands⟩
  · simp only [hl, ne_eq, not_false_eq_true, if_true]
    exact .ok ⟨rfl, h.mono (Nat.le_succ n)⟩

theorem Stands.lvalueArg (h : Stands n c t) (hcmd : NamesPlain cmd) (ic : Nat) :
    Matches n (fun a b => Stands n a.1 b.1 ∧ a.2 = b.2) (Asm.lvalueArg c cmd ic)
      (Tabled.lvalueArg t cmd ic) := by
  refine (h.need cmd ic _).bind fun tk _ htk heq => ?_
  subst heq
  cases ht : tk.type with
  | literalNum => exact .ok ⟨h, rfl⟩
  | name =>
    simp only
    rw [h.find (hcmd.plain (need_ok.mp htk) (.inl ht))]
    cases declareFind c.declare tk.text with
    | none => exact .fault _
    | some dec =>
      refine .ok ⟨?_, rfl⟩
      by_cases hl : dec.type = .label
      · simp only [hl, if_true]
        exact h.complained tk _
      · simp only [hl, if_false]
        exact h
  | _ => exact h.complainAt tk _

theorem Stands.rvalueArg (h : Stands n c t) (hcmd : NamesPlain cmd) (ic : Nat) :
    Matches n Eq (Asm.rvalueArg c cmd ic) (Tabled.rvalueArg t cmd ic) := by
  refine (h.need cmd ic _).bind fun tk _ htk heq => ?_
  subst heq
  cases ht : tk.type with
  | literalNum => exact .ok rfl
  | name =>
    simp only
    rw [h.find (hcmd.plain (need_ok.mp htk) (.inl ht))]
    cases declareFind c.declare tk.text with
    | none => exact h.complainAt tk _
    | some dec => exact .ok rfl
  | _ => exact h.complainAt tk _

theorem Stands.parseLvalue (h : Stands n c t) (hcmd : NamesPlain cmd) (ic : Nat) (flags : BitVec 8) :
    Matches n (fun a b => Stands n a.1 b.1 ∧ a.2 = b.2) (Asm.parseLvalue c cmd ic flags)
      (Tabled.parseLvalue t cmd ic flags) := by
  have hmode : Matches n Eq (Asm.lvalueMode c cmd ic flags)
      (t.ofAsm (Asm.lvalueMode t.asm cmd ic flags)) := by
    refine h.ofAsm (f := id) ?_
    conv_lhs => rw [← h.asm]
    exact lvalueMode_withDeclare t.asm c.declare cmd ic flags
  refine hmode.bind fun flags _ _ heq => ?_
  subst heq
  refine (h.lvalueArg hcmd (ic + 1)).bind fun a b _ hab => ?_
  exact .ok ⟨hab.1, by rw [hab.2]⟩

theorem Stands.parseRvalue (h : Stands n c t) (hcmd : NamesPlain cmd) (ic : Nat) (flags : BitVec 8)
    (idarg : Bool) : Matches n Eq (Asm.parseRvalue c cmd ic flags idarg)
      (Tabled.parseRvalue t cmd ic flags idarg) := by
  have hmode : Matches n Eq (Asm.rvalueMode c cmd ic flags idarg)
      (t.ofAsm (Asm.rvalueMode t.asm cmd ic flags idarg)) := by
    refine h.ofAsm (f := id) ?_
    conv_lhs => rw [← h.asm]
    exact rvalueMode_withDeclare t.asm c.declare cmd ic flags idarg
  refine hmode.bind fun x _ _ heq => ?_
  subst heq
  refine (h.rvalueArg hcmd x.1).bind fun v _ _ heq => ?_
  subst heq
  exact .ok rfl

theorem Stands.emit (h : Stands n c t) (m : Command) : Stands n (c.emit m) (t.emit m) := by
  have hasm : c.emit m = (t.asm.emit m).withDeclare c.declare := by
    conv_lhs => rw [← h.asm]
    rfl
  rw [hasm]
  exact h.withAsm

theorem Stands.mccount (h : Stands n c t) : t.asm.mccount = c.mccount := by
  rw [← h.asm]
  rfl

theorem Stands.firstArg (h : Stands n c t) (hn : n < 2 ^ 29) (hcmd : NamesPlain cmd) :
    Matches (n + 1) (fun a b => a.1 = b.1 ∧ Stands (n + 1) a.2 b.2) (Asm.firstArg c cmd)
      (Tabled.firstArg mem t cmd) := by
  refine (h.parseLabel mem hn hcmd).bind fun a b _ hab => ?_
  exact .ok ⟨by rw [hab.1], hab.2⟩

theorem Stands.oneOperand (h : Stands n c t) (hn : n < 2 ^ 29) (hcmd : NamesPlain cmd) :
    Matches (n + 1) (fun a b => Stands (n + 1) a.1 b.1 ∧ a.2 = b.2) (Asm.oneOperand c cmd)
      (Tabled.oneOperand mem t cmd) := by
  refine (h.firstArg mem hn hcmd).bind fun a b _ hab => ?_
  obtain ⟨ic, d⟩ := a
  obtain ⟨ic', u⟩ := b
  obtain ⟨heq, hd⟩ := hab
  cases heq
  refine (hd.parseRvalue hcmd ic 0 false).bind fun r _ _ heq => ?_
  subst heq
  exact .ok ⟨hd, rfl⟩

theorem Stands.twoOperands (h : Stands n c t) (hn : n < 2 ^ 29) (hcmd : NamesPlain cmd) :
    Matches (n + 1) (fun a b => Stands (n + 1) a.1 b.1 ∧ a.2 = b.2) (Asm.twoOperands c cmd)
      (Tabled.twoOperands mem t cmd) := by
  refine (h.firstArg mem hn hcmd).bind fun a b _ hab => ?_
  obtain ⟨ic, d⟩ := a
  obtain ⟨ic', u⟩ := b
  obtain ⟨heq, hd⟩ := hab
  cases heq
  refine (hd.parseLvalue hcmd ic 0).bind fun x y _ hxy => ?_
  obtain ⟨e, l⟩ := x
  obtain ⟨v, l'⟩ := y
  obtain ⟨he, heq⟩ := hxy
  cases heq
  refine (he.parseRvalue hcmd (l.ic + 1) l.flags true).bind fun r _ _ heq => ?_
  subst heq
  exact .ok ⟨he, rfl⟩

/-- The result of an action. -/
abbrev Acts (n : Nat) := Matches (n + 1) (Stands (n + 1))

theorem Stands.actionDeclare (h : Stands n c t) (hn : n < 2 ^ 29) (hcmd : NamesPlain cmd) :
    Acts n (Asm.actionDeclare c cmd) (Tabled.actionDeclare mem t cmd) := by
  refine ((h.tokenAt cmd 1).mono (Nat.le_succ n)).bind fun tk _ htk heq => ?_
  subst heq
  by_cases ht : tk.type = .name
  · simp only [ht, ne_eq, not_true_eq_false, if_false]
    have hdec := hcmd.plain (tokenAt_ok.mp htk) (.inl ht)
    refine ((h.need cmd 2 _).mono (Nat.le_succ n)).bind fun place _ _ heq => ?_
    subst heq
    have haddr : Matches n Eq (declareAddr c tk place) (t.ofAsm (declareAddr t.asm tk place)) := by
      refine h.ofAsm (f := id) ?_
      conv_lhs => rw [← h.asm]
      exact declareAddr_withDeclare t.asm c.declare tk place
    refine (haddr.mono (Nat.le_succ n)).bind fun x _ _ heq => ?_
    subst heq
    have hstorage : Matches n (fun a b => a = b.withDeclare c.declare)
        (declareStorage c cmd x.1 x.2) (t.ofAsm (declareStorage t.asm cmd x.1 x.2)) := by
      refine h.ofAsm ?_
      conv_lhs => rw [← h.asm]
      exact declareStorage_withDeclare t.asm c.declare cmd x.1 x.2
    refine (hstorage.mono (Nat.le_succ n)).bind fun a asm _ heq => ?_
    subst heq
    have hnew : Stands n (asm.withDeclare c.declare) (t.withAsm asm) := h.withAsm
    have hadd := hnew.add mem hn ⟨.literalNum, x.1, tk.text⟩ hdec
    cases hd : declareAdd (asm.withDeclare c.declare).declare ⟨.literalNum, x.1, tk.text⟩ with
    | none =>
      rw [hd] at hadd
      simp only at hadd
      simp only [hadd, ok_bind]
      exact .fail ((hnew.complained tk _).mono (Nat.le_succ n))
    | some d =>
      rw [hd] at hadd
      obtain ⟨u, hu, hasm, hstands⟩ := hadd
      simp only [hu, ok_bind]
      exact .ok hstands
  · simp only [ht, ne_eq, not_false_eq_true, if_true]
    exact (h.complainAt tk _).mono (Nat.le_succ n)

theorem Stands.actionInitr (h : Stands n c t) (hn : n < 2 ^ 29) (hcmd : NamesPlain cmd) :
    Acts n (Asm.actionInitr c cmd) (Tabled.actionInitr mem t cmd) := by
  refine (h.firstArg mem hn hcmd).bind fun a b _ hab => ?_
  obtain ⟨ic, d⟩ := a
  obtain ⟨ic', u⟩ := b
  obtain ⟨heq, hd⟩ := hab
  cases heq
  refine (hd.need cmd ic _).bind fun tk _ _ heq => ?_
  subst heq
  by_cases ht : tk.type = .literalNum
  · simp only [ht, ne_eq, not_true_eq_false, if_false]
    exact .ok (hd.emit _)
  · simp only [ht, ne_eq, not_false_eq_true, if_true]
    exact hd.complainAt tk _

theorem Stands.call (h : Stands n c t) (hn : n < 2 ^ 29) (hcmd : NamesPlain cmd) (a : Action) :
    Acts n (a.call c cmd) (Tabled.call mem a t cmd) := by
  cases a with
  | declare => exact h.actionDeclare mem hn hcmd
  | initr => exact h.actionInitr mem hn hcmd
  | noarg op =>
    exact (h.parseLabel mem hn hcmd).bind fun a b _ hab => .ok (hab.2.emit _)
  | onearg op =>
    refine (h.oneOperand mem hn hcmd).bind fun a b _ hab => ?_
    obtain ⟨d, w⟩ := a
    obtain ⟨u, w'⟩ := b
    obtain ⟨hd, heq⟩ := hab
    cases heq
    exact .ok (hd.emit _)
  | twoarg op =>
    refine (h.twoOperands mem hn hcmd).bind fun a b _ hab => ?_
    obtain ⟨d, w⟩ := a
    obtain ⟨u, w'⟩ := b
    obtain ⟨hd, heq⟩ := hab
    cases heq
    exact .ok (hd.emit _)
  | jmpi =>
    refine (h.oneOperand mem hn hcmd).bind fun a b _ hab => ?_
    obtain ⟨d, w⟩ := a
    obtain ⟨u, w'⟩ := b
    obtain ⟨hd, heq⟩ := hab
    cases heq
    simp only [hd.mccount]
    exact .ok (hd.emit _)
  | branch op =>
    refine (h.twoOperands mem hn hcmd).bind fun a b _ hab => ?_
    obtain ⟨d, w⟩ := a
    obtain ⟨u, w'⟩ := b
    obtain ⟨hd, heq⟩ := hab
    cases heq
    simp only [hd.mccount]
    exact .ok (hd.emit _)

theorem Stands.parseStep (h : Stands n c t) (hn : n < 2 ^ 29) (hcmd : NamesPlain cmd) :
    Acts n (Asm.parseStep c cmd) (Tabled.parseStep mem t cmd) := by
  have hname : Matches n Eq (commandName cmd) (t.ofAsm (commandName cmd)) := by
    obtain ⟨w, hw⟩ := hcmd
    obtain ⟨tk, htk, _⟩ := commandName_action (wellLexed_of_shapes hw)
    rw [htk]
    exact .ok rfl
  refine (hname.mono (Nat.le_succ n)).bind fun tk _ htk heq => ?_
  subst heq
  rw [h.actions tk.text (hcmd.command htk)]
  cases findAction tk.text with
  | none => exact (h.complainAt tk _).mono (Nat.le_succ n)
  | some a => exact h.call mem hn hcmd a

/-- A command declares one name at most, so a list of them keeps the tables standing. -/
theorem Stands.run (h : Stands n c t) {cmds : List Lexcmd} (hcmds : ∀ cmd ∈ cmds, NamesPlain cmd)
    (hn : n + cmds.length ≤ 2 ^ 29) :
    Matches (n + cmds.length) (Stands (n + cmds.length)) (Runs.run Asm.parseStep cmds c)
      (Runs.run (Tabled.parseStep mem) cmds t) := by
  induction cmds generalizing n c t with
  | nil => exact .ok h
  | cons cmd cmds ih =>
    obtain ⟨hcmd, hcmds⟩ := List.forall_mem_cons.mp hcmds
    rw [List.length_cons] at hn ⊢
    have hlen : n + 1 + cmds.length = n + (cmds.length + 1) := by omega
    rw [← hlen]
    refine ((h.parseStep mem (by omega) hcmd).mono (by omega)).bind fun d u _ hd => ?_
    exact ih hd hcmds (by omega)

end Parser

/-- What a table of actions stands for. -/
def named (xs : List (String × Action)) (k : List Rbhash.Byte) : Option Action :=
  (xs.find? fun x => key x.1.toList = k).map Prod.snd

theorem named_snoc {xs : List (String × Action)} {x : String × Action}
    (hnew : named xs (key x.1.toList) = none) :
    named (xs ++ [x]) = Function.update (named xs) (key x.1.toList) (some x.2) := by
  funext k
  have happ : named (xs ++ [x]) k =
      (named xs k).or (if key x.1.toList = k then some x.2 else none) := by
    unfold named
    rw [List.find?_append]
    cases xs.find? fun x => key x.1.toList = k with
    | some y => rfl
    | none => by_cases h : key x.1.toList = k <;> simp [h]
  rw [happ]
  by_cases hk : k = key x.1.toList
  · subst hk
    simp [hnew]
  · simp [Function.update_of_ne hk, Ne.symm hk]

/-- The names of a list of actions that a table can hold. -/
def Listed (xs : List (String × Action)) : Prop :=
  (xs.map fun x => key x.1.toList).Nodup ∧
    ∀ x ∈ xs, Plain x.1.toList ∧ x.1.toList.length ≤ rbhKey

theorem named_key {xs : List (String × Action)} (hxs : ∀ x ∈ xs, Plain x.1.toList)
    {name : List Char} (hn : Plain name) :
    named xs (key name) = (xs.find? fun x => x.1.toList = name).map Prod.snd := by
  induction xs with
  | nil => rfl
  | cons x xs ih =>
    obtain ⟨hx, hxs⟩ := List.forall_mem_cons.mp hxs
    have hiff : (key x.1.toList = key name) ↔ (x.1.toList = name) := key_inj hx hn
    have ih := ih hxs
    simp only [named, List.find?_cons, hiff] at ih ⊢
    cases decide (x.1.toList = name) with
    | true => rfl
    | false => exact ih

theorem named_none {xs : List (String × Action)} {k : List Rbhash.Byte}
    (hk : k ∉ xs.map fun x => key x.1.toList) : named xs k = none := by
  have hnone : xs.find? (fun x => key x.1.toList = k) = none := by
    rw [List.find?_eq_none]
    intro x hx he
    exact hk (List.mem_map.mpr ⟨x, hx, of_decide_eq_true he⟩)
  rw [named, hnone, Option.map_none]

theorem declareAction_run (mem : Blocks Action) (xs ys : List (String × Action))
    (hlist : Listed (xs ++ ys)) (hlen : (xs ++ ys).length ≤ 2 ^ 29) {t : Rbhash.Hash Action}
    (h : Holds t (named xs)) (hroom : t.count < t.size) (hcount : t.count = xs.length)
    (hkey : t.keySize = rbhKey) (hmin : t.min = rbhMin) :
    ∃ u, Runs.run (Tabled.declareAction mem) ys t = .ok u ∧ Holds u (named (xs ++ ys)) := by
  induction ys generalizing xs t with
  | nil =>
    rw [List.append_nil]
    exact ⟨t, rfl, h⟩
  | cons y ys ih =>
    obtain ⟨hplain, hshort⟩ := hlist.2 y (by simp)
    have hnew : named xs (key y.1.toList) = none := by
      refine named_none fun hmem => ?_
      have hnodup := hlist.1
      rw [List.map_append, List.map_cons, List.nodup_append] at hnodup
      exact hnodup.2.2 _ hmem _ List.mem_cons_self rfl
    rw [List.length_append, List.length_cons] at hlen
    obtain ⟨u, hadd, hu, hkind, hroom', hcount'⟩ := add_new h hroom
      (by rw [hkey]; exact key_valid hplain hshort) hnew (sizesFit_of_few hmin (by omega)) y.2
      (mem.el t.count) (mem.newtable t.count)
    have hstep : Tabled.declareAction mem t y = .ok u := by
      simp only [Tabled.declareAction, Blocks.alloc, hadd]
      rfl
    rw [run_cons, hstep, ok_bind, List.append_cons]
    rw [List.append_cons] at hlist
    refine ih _ hlist ?_ ?_ (hroom' (by rw [hmin]; decide)) ?_ (hkind.2.1.trans hkey)
      (hkind.2.2.1.trans hmin)
    · rw [List.length_append, List.length_append, List.length_singleton]
      omega
    · rw [named_snoc hnew]
      exact hu
    · rw [hcount', hcount, List.length_append, List.length_singleton]

theorem actions_listed : Listed actions := by
  have hall : (actions.all fun x =>
      decide (Plain x.1.toList ∧ x.1.toList.length ≤ rbhKey)) = true := by decide +kernel
  refine ⟨by decide +kernel, fun x hx => ?_⟩
  exact of_decide_eq_true (List.all_eq_true.mp hall x hx)

/-- `a32_parser_init` fills a new table with the actions. -/
theorem parserInit_ok (mem : Blocks Action) :
    ∃ u, Runs.run (Tabled.declareAction mem) actions
        (Rbhash.new rbhSize rbhMin rbhKey Hashalg.hashFasthash false mem.table) = .ok u ∧
      ∀ name, Plain name → Rbhash.find u (key name) = findAction name := by
  have hnew := holds_new rbhSize rbhMin rbhKey Hashalg.hashFasthash false mem.table (by decide)
    (by decide) (by decide)
  obtain ⟨u, hrun, hu⟩ := declareAction_run mem [] actions actions_listed
    (by decide) hnew hnew.pow.pos rfl rfl rfl
  refine ⟨u, hrun, fun name hn => ?_⟩
  rw [find_eq hu (key_ne_nil hn), List.nil_append,
    named_key (fun x hx => (actions_listed.2 x hx).1) hn]
  rfl

theorem stands_new (mem : Memory) (code : Text) :
    ∃ t, Tabled.new mem code = .ok t ∧ Stands 0 (.new code) t ∧ t.asm = .new code := by
  obtain ⟨u, hu, hfind⟩ := parserInit_ok mem.actions
  have hnew := holds_new rbhSize rbhMin rbhKey Hashalg.hashFasthash true mem.declare.table
    (by decide) (by decide) (by decide)
  have hcall : Tabled.new mem code = .ok ⟨.new code, u,
      Rbhash.new rbhSize rbhMin rbhKey Hashalg.hashFasthash true mem.declare.table⟩ := by
    simp only [Tabled.new, hu]
    rfl
  refine ⟨_, hcall, ?_, rfl⟩
  exact {
    asm := rfl
    holds := hnew
    keySize := rfl
    min := rfl
    room := hnew.pow.pos
    count := rfl
    few := Nat.le_refl 0
    plain := List.forall_mem_nil _
    actions := hfind }

theorem lexerStep_withDeclare (d : List Declared) (c : Asmchip32) :
    lexerStep (c.withDeclare d) =
      mapBoth (Stop.withDeclare d) (Outcome.map (·.withDeclare d)) (lexerStep c) := by
  have hparse : (c.withDeclare d).parse = c.parse := rfl
  have hline : (c.withDeclare d).line = c.line := rfl
  simp only [lexerStep, hparse, hline]
  by_cases hz : deref c.parse = nul
  · rw [if_pos hz, if_pos hz]
    rfl
  · rw [if_neg hz, if_neg hz]
    cases lexerLine c.line c.parse with
    | ok x => rfl
    | error e => cases e <;> rfl

theorem lexer_withDeclare (d : List Declared) (c : Asmchip32) :
    lexer (c.withDeclare d) = mapBoth (Stop.withDeclare d) (·.withDeclare d) (lexer c) :=
  loop_mapBoth lexerStep_left (lexerStep_withDeclare d) (Nat.le_refl _)

/-- Every line has a character at least. -/
theorem lexer_count {code : Text} {c : Asmchip32} (h : lexer (.new code) = .ok c) :
    c.vcmd.length ≤ code.length := by
  have hle : c.vcmd.length ≤ (Asmchip32.new code).vcmd.length + (Asmchip32.new code).parse.length := by
    refine loop_ok (P := fun s t : Asmchip32 => t.vcmd.length ≤ s.vcmd.length + s.parse.length)
      lexerStep_left ?_ ?_ h
    · intro s t hst
      rw [lexerStep_stop hst]
      exact Nat.le_add_right _ _
    · intro s t u hst hu
      have hlt := lexerStep_left s t hst
      obtain ⟨r, _, _, rfl⟩ := lexerStep_next hst
      have hone : r.1.toList.length ≤ 1 := by cases r.1 <;> simp
      simp only [List.length_append] at hu hlt
      omega
  simpa [Asmchip32.new] using hle

/-- The assembler with its hash tables, whatever memory they get, is the assembler with
lists: it accepts the same sources with the same commands, and rejects the others with the
same error at the same place; no insertion ends the program. -/
theorem tables_agree (mem : Memory) (code : Text) (hcode : code.length ≤ 2 ^ 29) :
    Matches code.length (Stands code.length) (build code) (Tabled.build mem code) := by
  obtain ⟨t, hnew, hstands, hasm⟩ := stands_new mem code
  rw [Tabled.build, hnew, ok_bind, hasm, build]
  have hlexer : Matches 0 (fun a b => a = b.withDeclare []) (lexer (.new code))
      (t.ofAsm (lexer (.new code))) :=
    hstands.ofAsm (lexer_withDeclare [] (.new code))
  refine (hlexer.mono (Nat.zero_le _)).bind fun c d hc heq => ?_
  subst heq
  have hlines : ∀ cmd ∈ (d.withDeclare []).vcmd, NamesPlain cmd := lexer_ok hc nofun
  have hcount := lexer_count hc
  have hfirst : Stands 0 (d.withDeclare []) (t.withAsm d) := hstands.withAsm
  have hrun := hfirst.run mem hlines (by omega)
  exact (hrun.mono (by omega)).imp fun a b hab => hab.mono (by omega)

/-- Blocks whose every byte is `7`. -/
def staleBlocks {δ : Type} : Blocks δ where
  table _ := ⟨none, 7, 7, 7, fun _ => 7⟩
  el _ := ⟨none, 7, 7, 7, fun _ => 7⟩
  newtable _ _ := ⟨none, 7, 7, 7, fun _ => 7⟩

theorem tables_agree_stale :
    let code := "l: initr 40\ndeclare x, ?\nmove $x, l\nmove $y, 1\n".toList
    Matches code.length (Stands code.length) (build code)
      (Tabled.build ⟨staleBlocks, staleBlocks⟩ code) :=
  tables_agree ⟨staleBlocks, staleBlocks⟩ _ (by decide)

end Asm
