import CiteParser.Core.Loop
import CiteParser.Store.Parse
import Mathlib.Logic.Function.Basic

/-!
# The hash tables

`khash.h`: tables with open addressing and double hashing, whose number of buckets is a prime. The
keys, their hash function and the values are parameters of `KHASH_INIT`. Two bits for each bucket
say whether it is empty and whether its entry was deleted. A table that has grown too full is hashed
anew in its own arrays.
-/

namespace CiteParser.Khash

open Loop

/-- `__ac_prime_list`. -/
def primeList : List Nat :=
  [0, 3, 11, 23, 53, 97, 193, 389, 769, 1543, 3079, 6151, 12289, 24593, 49157, 98317, 196613,
    393241, 786433, 1572869, 3145739, 6291469, 12582917, 25165843, 50331653, 100663319, 201326611,
    402653189, 805306457, 1610612741, 3221225473, 4294967291]

/-! ## The flags -/

/-- The words with the bits of the buckets. -/
abbrev Flags := Nat → BitVec 32

def isempty (flag : Flags) (i : Nat) : Bool := (flag (i >>> 4) >>> ((i &&& 0xf) <<< 1)) &&& 2 != 0

def isdel (flag : Flags) (i : Nat) : Bool := (flag (i >>> 4) >>> ((i &&& 0xf) <<< 1)) &&& 1 != 0

def iseither (flag : Flags) (i : Nat) : Bool := (flag (i >>> 4) >>> ((i &&& 0xf) <<< 1)) &&& 3 != 0

def setIsemptyFalse (flag : Flags) (i : Nat) : Flags :=
  Function.update flag (i >>> 4) (flag (i >>> 4) &&& ~~~(2#32 <<< ((i &&& 0xf) <<< 1)))

def setIsbothFalse (flag : Flags) (i : Nat) : Flags :=
  Function.update flag (i >>> 4) (flag (i >>> 4) &&& ~~~(3#32 <<< ((i &&& 0xf) <<< 1)))

def setIsdelTrue (flag : Flags) (i : Nat) : Flags :=
  Function.update flag (i >>> 4) (flag (i >>> 4) ||| 1#32 <<< ((i &&& 0xf) <<< 1))

/-- Words that `memset` has filled with `0xaa`: every bucket is empty. -/
def emptyFlags : Flags := fun _ => 0xaaaaaaaa

/-! ## The tables -/

/-- `kh_##name##_t`. -/
structure KhTable (K V : Type) where
  n_buckets : Nat
  size : Nat
  n_occupied : Nat
  upper_bound : Nat
  flags : Flags
  keys : Nat → K
  vals : Nat → V

/-- `(khint_t)(n * __ac_HASH_UPPER + 0.5)`. The sum is no nearer to an integer than a hundredth,
more than what `double` rounds off. -/
def hashUpper (n : Nat) : Nat := (77 * n + 50) / 100

/-- The next bucket to be looked at. -/
def advance (n_buckets inc i : Nat) : Nat :=
  if uint (i + inc) ≥ n_buckets then uint (i + inc) - n_buckets else uint (i + inc)

section Operations

variable {K V : Type}

/-- `kh_init`: the arrays are not there yet. -/
def khInit [Inhabited K] [Inhabited V] : KhTable K V :=
  ⟨0, 0, 0, 0, fun _ => 0, fun _ => default, fun _ => default⟩

/-- `kh_clear`. -/
def khClear (h : KhTable K V) : KhTable K V :=
  if h.n_buckets = 0 then h else { h with flags := emptyFlags, size := 0, n_occupied := 0 }

/-- `kh_del`. -/
def khDel (h : KhTable K V) (x : Nat) : KhTable K V :=
  if x != h.n_buckets && !iseither h.flags x then
    { h with flags := setIsdelTrue h.flags x, size := h.size - 1 }
  else h

/-- An assignment to `kh_value`. -/
def setValue (h : KhTable K V) (x : Nat) (v : V) : KhTable K V :=
  { h with vals := Function.update h.vals x v }

variable [DecidableEq K] (hash : K → Nat)

/-- What the loops of `kh_get` and `kh_put` go on behind. -/
def passedOver (h : KhTable K V) (key : K) (i : Nat) : Bool :=
  !isempty h.flags i && (isdel h.flags i || h.keys i != key)

/-- A pass of the loop of `kh_get`. -/
def getPass (h : KhTable K V) (key : K) (inc last i : Nat) : Outcome Nat Nat :=
  if passedOver h key i then
    let i := advance h.n_buckets inc i
    if i = last then .exit h.n_buckets else .next i
  else .exit (if iseither h.flags i then h.n_buckets else i)

/-- `kh_get`. -/
def khGet (h : KhTable K V) (key : K) : Option Nat :=
  if h.n_buckets = 0 then some 0
  else
    let k := hash key
    let i := k % h.n_buckets
    Loop.run (getPass h key (1 + k % (h.n_buckets - 1)) i) (h.n_buckets + 1) i

/-- `__ac_prime_list[t]` for the last `t` from the given one down that is not above `n`. -/
def primeBelow (n : Nat) : Nat → Nat
  | 0 => 0
  | t + 1 => if primeList.getD (t + 1) 0 > n then primeBelow n t else t + 1

/-- The arrays while a table is hashed anew. -/
structure Rehash (K V : Type) where
  flags : Flags
  new_flags : Flags
  keys : Nat → K
  vals : Nat → V

/-- A pass of the loop that looks for an empty bucket. -/
def freePass (new_flags : Flags) (n inc i : Nat) : Outcome Nat Nat :=
  if isempty new_flags i then .exit i else .next (advance n inc i)

/-- The bucket that a key comes to. -/
def freeBucket (new_flags : Flags) (n : Nat) (key : K) : Option Nat :=
  let k := hash key
  Loop.run (freePass new_flags n (1 + k % (n - 1))) (n + 1) (k % n)

/-- A pass of the loop in which an entry takes its bucket, and the entry that was there is the next
to be moved. -/
def kickPass (n_buckets new_n_buckets : Nat) :
    Rehash K V × K × V → Outcome (Rehash K V × K × V) (Option (Rehash K V))
  | (s, key, val) =>
      match freeBucket hash s.new_flags new_n_buckets key with
      | none => .exit none
      | some i =>
          let s' := { s with
            new_flags := setIsemptyFalse s.new_flags i
            keys := Function.update s.keys i key
            vals := Function.update s.vals i val }
          if i < n_buckets && !iseither s.flags i then
            .next ({ s' with flags := setIsdelTrue s.flags i }, s.keys i, s.vals i)
          else .exit (some s')

/-- The body of the loop over the buckets. -/
def rehashBucket (n_buckets new_n_buckets : Nat) (s : Rehash K V) (j : Nat) :
    Option (Rehash K V) :=
  if iseither s.flags j then some s
  else
    (Loop.run (kickPass hash n_buckets new_n_buckets) (n_buckets + 1)
      ({ s with flags := setIsdelTrue s.flags j }, s.keys j, s.vals j)).join

/-- `kh_resize`; the list of primes is not read behind its end. -/
def khResize (h : KhTable K V) (new_n_buckets : Nat) : Option (KhTable K V) := do
  let n ← primeList[primeBelow new_n_buckets 31 + 1]?
  if h.size ≥ hashUpper n then return h
  let s ← (List.range h.n_buckets).foldlM (rehashBucket hash h.n_buckets n)
    ⟨h.flags, emptyFlags, h.keys, h.vals⟩
  return ⟨n, h.size, h.size, hashUpper n, s.new_flags, s.keys, s.vals⟩

/-- A pass of the loop of `kh_put`: the bucket and `site`, and `x` when the loop is left. -/
def putPass (h : KhTable K V) (key : K) (inc last : Nat) :
    Nat × Nat → Outcome (Nat × Nat) (Nat × Nat × Nat)
  | (i, site) =>
      if passedOver h key i then
        let site := if isdel h.flags i then i else site
        let i := advance h.n_buckets inc i
        if i = last then .exit (site, i, site) else .next (i, site)
      else .exit (h.n_buckets, i, site)

/-- The bucket `x` that `kh_put` chooses. -/
def putSite (h : KhTable K V) (key : K) : Option Nat :=
  let k := hash key
  let i := k % h.n_buckets
  if isempty h.flags i then some i
  else
    (Loop.run (putPass h key (1 + k % (h.n_buckets - 1)) i) (h.n_buckets + 1)
      (i, h.n_buckets)).map fun (x, i, site) =>
        if x = h.n_buckets then
          if isempty h.flags i && site != h.n_buckets then site else i
        else x

/-- What `kh_put` does at the bucket, with what it stores in `ret`. -/
def putAt (h : KhTable K V) (key : K) (x : Nat) : KhTable K V × Nat :=
  if isempty h.flags x then
    ({ h with
      keys := Function.update h.keys x key
      flags := setIsbothFalse h.flags x
      size := h.size + 1
      n_occupied := h.n_occupied + 1 }, 1)
  else if isdel h.flags x then
    ({ h with
      keys := Function.update h.keys x key
      flags := setIsbothFalse h.flags x
      size := h.size + 1 }, 2)
  else (h, 0)

/-- The growth at the beginning of `kh_put`. -/
def makeRoom (h : KhTable K V) : Option (KhTable K V) :=
  if h.n_occupied ≥ h.upper_bound then
    if h.n_buckets > uint (h.size <<< 1) then khResize hash h (h.n_buckets - 1)
    else khResize hash h (uint (h.n_buckets + 1))
  else some h

/-- `kh_put`: the table, the bucket of the key and what is stored in `ret`. -/
def khPut (h : KhTable K V) (key : K) : Option (KhTable K V × Nat × Nat) := do
  let h ← makeRoom hash h
  let x ← putSite hash h key
  let (h, ret) := putAt h key x
  return (h, x, ret)

end Operations

/-! ## Tables of strings -/

/-- A `char` as it is widened, modulo `2 ^ 32`. -/
def widened (c : UInt8) : Nat := if c < 128 then c.toNat else c.toNat + (2 ^ 32 - 256)

/-- `__ac_X31_hash_string`. -/
def x31HashString : List UInt8 → Nat
  | [] => 0
  | c :: s => s.foldl (fun h c => uint (uint ((h <<< 5) + (2 ^ 32 - h)) + widened c)) (widened c)

end CiteParser.Khash
