import PagedWords.Cells
import PagedWords.Span

/-!
# Searches in ascending ranges

A range is a sequence of records of `stride` words, ordered by their first word, the key; a plain
range has stride 1. A miss names the record before which the key would be inserted.
-/
namespace PagedWords

inductive Finding | found (pos : Nat) | missing (pos : Nat)
deriving DecidableEq, Repr

namespace Finding

def pos : Finding → Nat
  | found p | missing p => p

def isFound : Finding → Bool
  | found _ => true
  | missing _ => false

def found? : Finding → Option Nat
  | found p => some p
  | missing _ => none

/-- The finding in a frame whose origin lies `base` positions before. -/
def shift (base : Nat) : Finding → Except Fault Finding
  | found p => found <$> addPosition p base
  | missing p => missing <$> addPosition p base

def shiftBack (base : Nat) : Finding → Except Fault Finding
  | found p => found <$> subPosition p base
  | missing p => missing <$> subPosition p base

end Finding

/-- One record after the other, or halving the range while it is long. -/
inductive Strategy | linear | bisect deriving DecidableEq, Repr

namespace Search
variable {σ : Type} {k : Width} [Cells σ k]

/-- Looks at `n` records from `pos` on, up to the first whose key is not below. -/
@[specialize] def scan (a : σ) (stride : Nat) (key : Word k) (stop : Nat) : Nat → Nat → Except Fault Finding
  | 0, _ => .ok (.missing stop)
  | n + 1, pos => do
      let w ← Cells.get a pos
      if w = key then return .found pos
      else if key < w then return .missing pos
      else scan a stride key stop n (pos + stride)

/-- Looks at the records `low..high`, counted from `start`. -/
@[specialize] def scanBetween (a : σ) (stride : Nat) (key : Word k) (start low high : Nat) :
    Except Fault Finding :=
  scan a stride key (start + high * stride) (high - low) (start + low * stride)

/-- Narrows `low..high` to fewer records than the cutoff, each step at least halving it. -/
@[specialize] def bisectFrom (a : σ) (stride : Nat) (key : Word k) (start : Nat) :
    Nat → Nat → Nat → Except Fault Finding
  | 0, low, high => scanBetween a stride key start low high
  | fuel + 1, low, high =>
      if k.linearCutoff ≤ high - low then do
        let mid := low + (high - low) / 2
        let w ← Cells.get a (start + mid * stride)
        if w < key then bisectFrom a stride key start fuel (mid + 1) high
        else if key < w then bisectFrom a stride key start fuel low mid
        else return .found (start + mid * stride)
      else scanBetween a stride key start low high

@[specialize] def bisect (a : σ) (stride : Nat) (key : Word k) (start stop : Nat) : Except Fault Finding :=
  if stop ≤ start then .ok (.missing start)
  else bisectFrom a stride key start ((stop - start) / stride) 0 ((stop - start) / stride)

@[specialize] def search (how : Strategy) (a : σ) (key : Word k) (start stop : Nat) : Except Fault Finding :=
  match how with
  | .linear => scan a 1 key stop (stop - start) start
  | .bisect => bisect a 1 key start stop

@[specialize] def searchRecords (how : Strategy) (a : σ) (stride : Nat) (key : Word k) (start stop : Nat) :
    Except Fault (Except Error Finding) :=
  whenValid (checkRecords start stop (Cells.size a) stride) <|
    match how with
    | .linear => scan a stride key stop ((stop - start) / stride) start
    | .bisect => bisect a stride key start stop

/-- The first of `n` records from number `low` on whose key is not below, or the number after them. -/
@[specialize] def skipBelow (a : σ) (stride : Nat) (key : Word k) (start : Nat) : Nat → Nat → Except Fault Nat
  | 0, low => .ok low
  | n + 1, low => do
      let w ← Cells.get a (start + low * stride)
      if w < key then skipBelow a stride key start n (low + 1) else return low

@[specialize] def boundFrom (a : σ) (stride : Nat) (key : Word k) (start : Nat) :
    Nat → Nat → Nat → Except Fault Nat
  | 0, low, high => skipBelow a stride key start (high - low) low
  | fuel + 1, low, high =>
      if k.linearCutoff ≤ high - low then do
        let mid := low + (high - low) / 2
        let w ← Cells.get a (start + mid * stride)
        if w < key then boundFrom a stride key start fuel (mid + 1) high
        else boundFrom a stride key start fuel low mid
      else skipBelow a stride key start (high - low) low

/-- The first record whose key is not below, or `stop`. -/
@[specialize] def lowerBound (a : σ) (stride : Nat) (key : Word k) (start stop : Nat) : Except Fault Nat :=
  if stop ≤ start then .ok start
  else do
    let n := (stop - start) / stride
    let low ← boundFrom a stride key start n 0 n
    return if low = n then stop else start + low * stride

/-- The first word not below, or `stop` when `n` words from `pos` on are below. -/
@[specialize] def firstNotBelow (a : σ) (key : Word k) (stop : Nat) : Nat → Nat → Except Fault Nat
  | 0, _ => .ok stop
  | n + 1, pos => do
      let w ← Cells.get a pos
      if w < key then firstNotBelow a key stop n (pos + 1) else return pos

@[specialize] def bound (how : Strategy) (a : σ) (key : Word k) (start stop : Nat) : Except Fault Nat :=
  match how with
  | .linear => firstNotBelow a key stop (stop - start) start
  | .bisect => lowerBound a 1 key start stop

@[specialize] def boundRecords (a : σ) (stride : Nat) (key : Word k) (start stop : Nat) :
    Except Fault (Except Error Nat) :=
  whenValid (checkRecords start stop (Cells.size a) stride) (lowerBound a stride key start stop)

end Search
end PagedWords
