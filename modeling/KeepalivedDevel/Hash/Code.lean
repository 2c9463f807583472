import KeepalivedDevel.CLib.CInt
import KeepalivedDevel.CLib.While

/-!
# `code_test/hash.c`

Two hash functions of a virtual router identifier and a file descriptor, and a
`main` that counts how evenly they fill a table. Every `int` expression wraps
at 32 bits; `/` and `%` round towards zero. The `double` variables, with the mean
and the deviation that are printed, are left out.
-/

namespace KeepalivedDevel.Hash

open CLib CLib.While
open CLib.CInt (wrap)

/-! ### The hash functions -/

/- What `get_hash_dc` reduces modulo `HASH_TABLE_SIZE`. -/
def dcValue (vrid fd : ℤ) : ℤ :=
  wrap ((wrap (wrap (vrid + fd) * wrap (wrap (vrid + fd) + 1))).tdiv 2 + vrid)

def getHashDc (hashTableSize vrid fd : ℤ) : ℤ := (dcValue vrid fd).tmod hashTableSize

def pqaValue (vrid fd : ℤ) : ℤ := wrap (wrap (vrid * 31) + wrap (fd * 37))

def getHashPqa (hashTableSize vrid fd : ℤ) : ℤ := (pqaValue vrid fd).tmod hashTableSize

inductive Algorithm where
  | dc
  | pqa
  deriving Repr, DecidableEq

def Algorithm.getHash : Algorithm → ℤ → ℤ → ℤ → ℤ
  | .dc => getHashDc
  | .pqa => getHashPqa

/-! ### The options -/

structure Settings where
  hashTableSize : ℤ
  beginFd : ℤ
  numFd : ℤ
  numVrid : ℤ
  fdStep : ℤ
  algorithm : Algorithm
  deriving Repr, DecidableEq

/-- What `getopt` finds, with `optarg` as `atoi` reads it. -/
inductive Opt where
  | h (n : ℤ)
  | b (n : ℤ)
  | f (n : ℤ)
  | v (n : ℤ)
  | s (n : ℤ)
  | q
  | help
  | unknown (optopt : Char)
  | missing (optopt : Char)
  deriving Repr, DecidableEq

structure Exit where
  status : ℕ
  printed : String
  deriving Repr, DecidableEq

def initial : Settings := ⟨0, 12, 0, 255, 2, .dc⟩

def option (s : Settings) : Opt → Except Exit Settings
  | .h n => .ok { s with hashTableSize := n, numFd := if s.numFd = 0 then n else s.numFd }
  | .b n => .ok { s with beginFd := n }
  | .f n => .ok { s with numFd := n }
  | .v n => .ok { s with numVrid := n }
  | .s n => .ok { s with fdStep := n }
  | .q => .ok { s with
      algorithm := .pqa
      hashTableSize := if s.hashTableSize = 0 then 1151 else s.hashTableSize }
  | .help => .error ⟨0, "-h hash_size -f num_fd -v num_vrid -s fd_step -q primes_algo\n"⟩
  | .unknown c => .error ⟨1, "Unknown option -" ++ c.toString ++ "\n"⟩
  | .missing c => .error ⟨1, "Missing option argument for -" ++ c.toString ++ "\n"⟩

def defaults (s : Settings) : Settings :=
  { s with
    hashTableSize := if s.hashTableSize = 0 then 1024 else s.hashTableSize
    numFd := if s.numFd = 0 then 1024 else s.numFd }

def settings (opts : List Opt) : Except Exit Settings :=
  (opts.foldlM option initial).map defaults

/-! ### The counting loops -/

/- `num_ent[index]++`; an index outside the table is an access outside `num_ent`. -/
def bump (numEnt : List UInt32) (index : ℤ) : Option (List UInt32) :=
  if 0 ≤ index ∧ index < numEnt.length then some (numEnt.modify index.toNat (· + 1)) else none

/-- The variables of the loops; `j` is set while the inner one runs. -/
structure Count where
  i : ℤ
  j : Option ℤ
  numEnt : List UInt32
  deriving Repr, DecidableEq

def endFd (s : Settings) : ℤ := wrap (s.beginFd + wrap (s.numFd * s.fdStep))

/- One test of a loop condition with what follows it. The loops are left with
   the table, or with the index of an access outside it. -/
def countBody (s : Settings) (c : Count) : Pass Count (Except ℤ (List UInt32)) :=
  match c.j with
  | none =>
    if c.i < endFd s then .again { c with j := some 1 } else .leave (.ok c.numEnt)
  | some j =>
    if j ≤ s.numVrid then
      let index := s.algorithm.getHash s.hashTableSize j c.i
      match bump c.numEnt index with
      | none => .leave (.error index)
      | some numEnt => .again ⟨c.i, some (wrap (j + 1)), numEnt⟩
    else .again ⟨wrap (c.i + s.fdStep), none, c.numEnt⟩

def startCount (s : Settings) : Count :=
  ⟨s.beginFd, none, List.replicate s.hashTableSize.toNat 0⟩

/- The loops, run with these settings, end with `r`. -/
def Counts (s : Settings) (r : Except ℤ (List UInt32)) : Prop :=
  Ends (countBody s) (startCount s) r

/-! ### The statistics -/

/- The integers that a bucket adds to the doubles `sum` and `sum_squares`. -/
structure Term where
  count : UInt32
  square : UInt32
  deriving Repr, DecidableEq

/-- The loop over the buckets (`hash.c:86-96`). Of the two sums, which are doubles,
only the integers added to them are modelled, and nothing of the mean and the
variance made from them. `min` and `max` are the bits of an `int`: both are compared
with a counter as unsigned numbers. -/
structure Stats where
  terms : List Term
  min : UInt32
  max : UInt32
  deriving Repr, DecidableEq

def Stats.add (s : Stats) (n : UInt32) : Stats where
  terms := s.terms ++ [⟨n, n * n⟩]
  min := if n < s.min then n else s.min
  max := if s.max < n then n else s.max

def statistics (numEnt : List UInt32) : Stats := numEnt.foldl Stats.add ⟨[], 2147483647, 0⟩

end KeepalivedDevel.Hash
