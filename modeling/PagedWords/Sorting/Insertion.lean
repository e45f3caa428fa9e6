import PagedWords.Cells
import PagedWords.Span

/-! # Order of records by key, and insertion sort -/
namespace PagedWords.Sorting
variable {σ : Type} {k : Width}

section Words
variable [Cells σ k]

/-- Whether the keys of `n` records from `pos` on do not fall below `prev` or each other. -/
@[specialize] def isSortedFrom (a : σ) (stride : Nat) : Nat → Nat → Word k → Except Fault Bool
  | 0, _, _ => .ok true
  | n + 1, pos, prev => do
      let w ← Cells.get a pos
      if w < prev then return false else isSortedFrom a stride n (pos + stride) w

/-- A range of at most one record is sorted, provided its end is a position. -/
@[specialize] def keysSorted (a : σ) (stride start stop : Nat) : Except Fault Bool := do
  let second ← addPosition start stride
  if stop ≤ second then return true
  else isSortedFrom a stride ((stop - start) / stride - 1) second (← Cells.get a start)

@[specialize] def isSorted (a : σ) (start stop : Nat) : Except Fault Bool := keysSorted a 1 start stop

@[specialize] def isSortedRecords (a : σ) (stride start stop : Nat) : Except Fault (Except Error Bool) :=
  whenValid (checkRecords start stop (Cells.size a) stride) (keysSorted a stride start stop)

/-- Moves the words above `key` up by one, from the word `n - 1` places after `start` downwards, and
puts `key` into the gap. -/
@[specialize] def insertKey (start : Nat) (key : Word k) : Nat → σ → Except Fault σ
  | 0, a => Cells.set a start key
  | n + 1, a => do
      let prev ← Cells.get a (start + n)
      if prev ≤ key then Cells.set a (start + n + 1) key
      else insertKey start key n (← Cells.set a (start + n + 1) prev)

@[specialize] def insertKeys (start : Nat) : Nat → Nat → σ → Except Fault σ
  | 0, _, a => .ok a
  | n + 1, i, a => do
      let key ← Cells.get a (start + i)
      insertKeys start n (i + 1) (← insertKey start key i a)

@[specialize] def insertionSort (a : σ) (start stop : Nat) : Except Fault σ :=
  insertKeys start (stop - start - 1) 1 a

end Words

section Records
variable [BulkCells σ k]

/-- Swaps record `n`, counted from `start`, down past the records with a larger key. -/
@[specialize] def sinkRecord (stride start : Nat) : Nat → σ → Except Fault σ
  | 0, a => .ok a
  | n + 1, a => do
      let below := start + n * stride
      let prev ← Cells.get a below
      let key ← Cells.get a (below + stride)
      if key < prev then sinkRecord stride start n (← BulkCells.swapRecords a stride below (below + stride))
      else return a

@[specialize] def sinkRecords (stride start : Nat) : Nat → Nat → σ → Except Fault σ
  | 0, _, a => .ok a
  | n + 1, i, a => do sinkRecords stride start n (i + 1) (← sinkRecord stride start i a)

/-- Insertion sort of whole records; single words are inserted without swaps. -/
@[specialize] def insertionSortRecords (a : σ) (stride start stop : Nat) : Except Fault σ :=
  if stride = 1 then insertionSort a start stop
  else do
    let _ ← addPosition start stride
    sinkRecords stride start ((stop - start) / stride - 1) 1 a

end Records

end PagedWords.Sorting
