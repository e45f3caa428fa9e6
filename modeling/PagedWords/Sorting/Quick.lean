import PagedWords.Sorting.Insertion

/-!
# Quicksort of records around the key in the middle

The two scans of a partition have no bound of their own: the middle record stops the first round, and
swapped records stop the later ones. They count their steps by the records of the range.
-/
namespace PagedWords.Sorting
variable {σ : Type} {k : Width} [BulkCells σ k]

/-- Fewer words than this are sorted by insertion at once. -/
def insertionLimit : Nat := 64

/-- Fewer steps than this from the first to the last record of a part end in insertion sort. -/
def smallPart : Nat := 32

@[specialize] def scanUp (a : σ) (stride : Nat) (pivot : Word k) : Nat → Nat → Except Fault Nat
  | 0, _ => .error .badIndex
  | fuel + 1, i => do
      let w ← Cells.get a i
      if w < pivot then scanUp a stride pivot fuel (i + stride) else return i

@[specialize] def scanDown (a : σ) (stride : Nat) (pivot : Word k) : Nat → Nat → Except Fault Nat
  | 0, _ => .error .badIndex
  | fuel + 1, j => do
      let w ← Cells.get a j
      if pivot < w then scanDown a stride pivot fuel (← subPosition j stride) else return j

@[specialize] def partitionFrom (stride : Nat) (pivot : Word k) (records : Nat) :
    Nat → Nat → Nat → σ → Except Fault (Nat × σ)
  | 0, _, _, _ => .error .badIndex
  | fuel + 1, i, j, a => do
      let i ← scanUp a stride pivot records i
      let j ← scanDown a stride pivot records j
      if j ≤ i then return (j, a)
      else do
        let a ← if stride = 1 then Cells.swap a i j else BulkCells.swapRecords a stride i j
        partitionFrom stride pivot records fuel (i + stride) (← subPosition j stride) a

/-- Parts the records `low..high`, both included, around the middle key; answers the last record of
the lower part. -/
@[specialize] def partition (a : σ) (stride low high : Nat) : Except Fault (Nat × σ) := do
  let records := (high - low) / stride + 1
  let pivot ← Cells.get a (low + (high - low) / stride / 2 * stride)
  partitionFrom stride pivot records records low high a

/-- Sorts the records `low..high`, both included; the smaller part goes first. -/
@[specialize] def partsSort (stride : Nat) : Nat → Nat → Nat → σ → Except Fault σ
  | 0, _, _, a => .ok a
  | fuel + 1, low, high, a =>
      if low < high then
        if (high - low) / stride < smallPart then insertionSortRecords a stride low (high + stride)
        else do
          let (mid, a) ← partition a stride low high
          if mid - low < high - mid then do
            partsSort stride fuel (mid + stride) high (← partsSort stride fuel low mid a)
          else do
            partsSort stride fuel low mid (← partsSort stride fuel (mid + stride) high a)
      else .ok a

@[specialize] def sortParts (a : σ) (stride low high : Nat) : Except Fault σ :=
  partsSort stride ((high - low) / stride + 1) low high a

@[specialize] def quickSort (a : σ) (start stop : Nat) : Except Fault σ :=
  if stop ≤ start then .ok a
  else if stop - start < insertionLimit then insertionSort a start stop
  else sortParts a 1 start (stop - 1)

@[specialize] def quickSortRecords (a : σ) (stride start stop : Nat) : Except Fault σ :=
  if stride = 1 then quickSort a start stop
  else do
    let second ← addPosition start stride
    if stop < second then return a else sortParts a stride start (stop - stride)

end PagedWords.Sorting
