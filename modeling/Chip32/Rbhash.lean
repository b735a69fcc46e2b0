import Chip32.Runs
import Chip32.Ring
import Mathlib.Logic.Function.Basic

/-!
# The hash table of `rbhash.c`

A table is a block of `size` elements, a power of two, indexed by slot. What
`malloc` hands out is an argument of the functions that call it, so a fresh
block holds any bytes at all; `none` is a failed allocation. The exit that
follows `rbhash fail` is the only way a call does not return.
-/
namespace Rbhash

abbrev Byte := BitVec 8

/-- `rbhashElement_s`. The key is memory: only its first `len` bytes are meant. -/
structure Element (δ : Type) where
  data : Option δ
  hash : BitVec 32
  len : Nat
  distance : Nat
  key : Nat → Byte

/-- `rbhash_s`, its elements sized for keys of `keySize` bytes. -/
structure Hash (δ : Type) where
  table : Nat → Element δ
  size : Nat
  count : Nat
  min : Nat
  maxdistance : Nat
  keySize : Nat
  hashing : List Byte → BitVec 32
  del : Bool

inductive Exit where
  | rbhashFail
  deriving DecidableEq, Repr

variable {δ : Type}

/-- `FAST_MOD_POW_TWO`. -/
def fastModPowTwo (n m : Nat) : Nat := n &&& (m - 1)

/-- `ROUND_UP_POW_TWO32`, in a 32-bit unsigned word. -/
def roundUpPowTwo32 (n : Nat) : Nat :=
  let r := BitVec.ofNat 32 n
  let r := r - 1
  let r := r ||| r >>> 1
  let r := r ||| r >>> 2
  let r := r ||| r >>> 4
  let r := r ||| r >>> 8
  let r := r ||| r >>> 16
  (r + 1).toNat

def slot (hash size : Nat) : Nat := fastModPowTwo hash size

def slotNext (size s : Nat) : Nat := slot (s + 1) size

/-- The bytes a key of `n` bytes occupies in an element. -/
def Element.bytes (e : Element δ) (n : Nat) : List Byte := (List.range n).map e.key

/-- Freshly allocated elements, emptied one by one. -/
def clear (size : Nat) (stale : Nat → Element δ) : Nat → Element δ :=
  fun i => if i < size then { stale i with len := 0 } else stale i

/-- `rbhash_new`. -/
def new (size min keysize : Nat) (hashing : List Byte → BitVec 32) (del : Bool)
    (stale : Nat → Element δ) : Hash δ where
  table := clear (roundUpPowTwo32 size) stale
  size := roundUpPowTwo32 size
  count := 0
  min := min
  maxdistance := 0
  keySize := keysize
  hashing := hashing
  del := del

/-- `memswap` on the first `n` bytes, one side of it. -/
def memswap (n : Nat) (a b : Nat → Byte) : Nat → Byte := fun i => if i < n then b i else a i

/-- The four `SWAP`s and the `memswap` of `rbhash_swapdown`, for one side. -/
def Element.swapped (a b : Element δ) : Element δ where
  data := b.data
  hash := b.hash
  len := b.len
  distance := b.distance
  key := memswap (max a.len b.len) a.key b.key

/-- The variables of `rbhash_swapdown`'s loop. -/
structure Walk (δ : Type) where
  table : Nat → Element δ
  maxdistance : Nat
  bucket : Nat
  nw : Element δ

/-- One element further, after changing places with one nearer to its home. -/
def swapdownStep (size : Nat) (w : Walk δ) : Walk δ :=
  let tbl := w.table w.bucket
  let table := if tbl.distance < w.nw.distance then
    Function.update w.table w.bucket (tbl.swapped w.nw) else w.table
  let nw := if tbl.distance < w.nw.distance then w.nw.swapped tbl else w.nw
  let distance := (nw.distance + 1) % 2 ^ 32
  { table := table
    maxdistance := if w.maxdistance < distance then distance else w.maxdistance
    bucket := slotNext size w.bucket
    nw := { nw with distance := distance } }

/-- The loop over at most `size` slots, which an empty slot ends. -/
def swapdownLoop (size : Nat) : Nat → Walk δ → Walk δ
  | 0, w => w
  | k + 1, w => if (w.table w.bucket).len ≠ 0 then swapdownLoop size k (swapdownStep size w) else w

/-- `rbhash_swapdown`; the new table and the new `maxdistance`. -/
def swapdown (size : Nat) (table : Nat → Element δ) (maxdistance : Nat) (nw : Element δ) :
    Except Exit ((Nat → Element δ) × Nat) :=
  let w := swapdownLoop size size ⟨table, maxdistance, slot nw.hash.toNat size, nw⟩
  if (w.table w.bucket).len ≠ 0 then .error .rbhashFail
  else .ok (Function.update w.table w.bucket w.nw, w.maxdistance)

/-- One turn of the loop in `rbhash_upsize`, which takes `key[0] == 0` for an empty slot. -/
def rehash (newsize : Nat) (acc : (Nat → Element δ) × Nat) (el : Element δ) :
    Except Exit ((Nat → Element δ) × Nat) :=
  if el.key 0 = 0 then .ok acc
  else swapdown newsize acc.1 acc.2 { el with distance := 0 }

/-- The slots that must be free for the table to stay as it is. -/
def spare (t : Hash δ) : Nat := t.size * t.min / 100 + 1

/-- `rbhash_upsize`. -/
def upsize (t : Hash δ) (newtable : Option (Nat → Element δ)) : Except Exit (Int × Hash δ) :=
  if t.count + spare t < t.size then .ok (0, t)
  else match newtable with
    | none => .ok (-1, t)
    | some stale => do
      let newsize := roundUpPowTwo32 (t.size + spare t)
      let (table, maxdistance) ← Runs.run (rehash newsize) ((List.range t.size).map t.table)
        (clear newsize stale, 0)
      pure (0, { t with table := table, size := newsize, maxdistance := maxdistance })

/-- What the allocations of one call return. -/
structure Alloc (δ : Type) where
  el : Option (Element δ)
  newtable : Option (Nat → Element δ)

/-- The element `rbhash_add_hash` fills in, in the memory it was given. -/
def Element.fill (el : Element δ) (hash : BitVec 32) (key : List Byte) (data : Option δ) :
    Element δ where
  data := data
  hash := hash
  len := key.length % 2 ^ 32
  distance := 0
  key := fun i => key.getD i (el.key i)

/-- `rbhash_add_hash`. -/
def addHash (t : Hash δ) (hash : BitVec 32) (key : List Byte) (data : Option δ)
    (a : Alloc δ) : Except Exit (Int × Hash δ) :=
  if t.keySize < key.length then .ok (-1, t)
  else match a.el with
    | none => .ok (-1, t)
    | some el => do
      let (table, maxdistance) ← swapdown t.size t.table t.maxdistance (el.fill hash key data)
      let t := { t with table := table, maxdistance := maxdistance, count := t.count + 1 }
      if t.min ≠ 0 then upsize t a.newtable else pure (0, t)

/-- `rbhash_add`. -/
def add (t : Hash δ) (key : List Byte) (data : Option δ) (a : Alloc δ) :
    Except Exit (Int × Hash δ) :=
  addHash t (t.hashing key) key data a

/-- The comparison of `rbhash_find_bucket`. -/
def elementMatches (t : Hash δ) (hash : BitVec 32) (key : List Byte) (s : Nat) : Bool :=
  (t.table s).len = key.length && (t.table s).hash = hash && (t.table s).bytes key.length = key

/-- `rbhash_find_bucket`; `none` is its `-1`. -/
def findBucket (t : Hash δ) (hash : BitVec 32) (key : List Byte) : Option Nat :=
  Ring.scan (slotNext t.size) (elementMatches t hash key) (t.maxdistance + 1) (slot hash.toNat t.size)

/-- `rbhash_find_hash`. -/
def findHash (t : Hash δ) (hash : BitVec 32) (key : List Byte) : Option δ :=
  match findBucket t hash key with
  | none => none
  | some b => (t.table b).data

/-- `rbhash_find`. -/
def find (t : Hash δ) (key : List Byte) : Option δ := findHash t (t.hashing key) key

/-- `rbhash_add_unique`. -/
def addUnique (t : Hash δ) (key : List Byte) (data : Option δ) (a : Alloc δ) :
    Except Exit (Int × Hash δ) :=
  if (find t key).isSome then .ok (-1, t) else add t key data a

/-- The loop of `rbhash_swapup`. It is the table pointer, not the element
pointer, that each turn moves on. -/
def swapupLoop (size tbl : Nat) :
    Nat → (mem : Nat → Element δ) → (table bucketfit bucket : Nat) → Nat → Element δ
  | 0, mem, _, _, _ => mem
  | k + 1, mem, table, bucketfit, bucket =>
    if (mem tbl).len ≠ 0 ∧ (mem tbl).distance ≠ 0 then
      let mem := Function.update mem (table + bucketfit) (mem tbl)
      let mem := Function.update mem tbl { mem tbl with len := 0, data := none }
      swapupLoop size tbl k mem (table + slotNext size bucket) bucket (slotNext size bucket)
    else mem

/-- `rbhash_swapup`. -/
def swapup (size : Nat) (mem : Nat → Element δ) (bucket : Nat) : Nat → Element δ :=
  swapupLoop size (slotNext size bucket) size mem 0 bucket (slotNext size bucket)

/-- `rbhash_remove_hash`, with the data it passes to the `del` callback. -/
def removeHash (t : Hash δ) (hash : BitVec 32) (key : List Byte) :
    Int × Hash δ × List δ :=
  match findBucket t hash key with
  | none => (-1, t, [])
  | some b =>
    let el := t.table b
    let table := Function.update t.table b { el with len := 0, data := none }
    (0, { t with table := swapup t.size table b, count := t.count - 1 },
      if t.del then el.data.toList else [])

/-- `rbhash_remove`. -/
def remove (t : Hash δ) (key : List Byte) : Int × Hash δ × List δ :=
  removeHash t (t.hashing key) key

end Rbhash
