import PagedWords.Sorting.Quick
import PagedWords.Words

/-!
# Bottom-up merge sort through a scratch array

Chunks of a power of two of records are sorted first; then runs of doubling width are merged into the
scratch array, and back into place, until one run covers the range.
-/
namespace PagedWords

/-- Storage that sorts single words in a way of its own. -/
class Sortable (σ : Type) (k : outParam Width) extends BulkCells σ k where
  quickSort : σ → Nat → Nat → Except Fault σ := Sorting.quickSort

instance {k : Width} : Sortable (Words k) k where
  toBulkCells := inferInstance

namespace Sorting
variable {σ : Type} {k : Width}

/-- The chunk limit, in records, of the sorts that are not told one. -/
def defaultChunk : Nat := 1 <<< 16

section Runs
variable [Cells σ k]

/-- Copies `n` words from position `pos` to place `out` of the scratch array. -/
@[specialize] def copyWords (a : σ) : Nat → Nat → Nat → Words k → Except Fault (Words k)
  | 0, _, _, scratch => .ok scratch
  | n + 1, pos, out, scratch => do
      let w ← Cells.get a pos
      copyWords a n (pos + 1) (out + 1) (← scratch.set out w)

/-- Whether the next record comes from the left run: on equal keys it does. -/
@[specialize] def takesLeft (a : σ) (base mid right l r : Nat) : Except Fault Bool :=
  if l < mid then
    if right ≤ r then .ok true
    else do
      let x ← Cells.get a (base + l)
      let y ← Cells.get a (base + r)
      return x ≤ y
  else .ok false

@[specialize] def mergeFrom (a : σ) (stride base mid right : Nat) :
    Nat → Nat → Nat → Nat → Words k → Except Fault (Words k)
  | 0, _, _, _, scratch => .ok scratch
  | n + 1, l, r, out, scratch => do
      if ← takesLeft a base mid right l r then
        mergeFrom a stride base mid right n (l + stride) r (out + stride)
          (← copyWords a stride (base + l) out scratch)
      else
        mergeFrom a stride base mid right n l (r + stride) (out + stride)
          (← copyWords a stride (base + r) out scratch)

/-- Merges the runs `left..mid` and `mid..right`, counted from `base`, into the scratch array. -/
@[specialize] def mergeTwo (a : σ) (stride base left mid right : Nat) (scratch : Words k) :
    Except Fault (Words k) :=
  mergeFrom a stride base mid right ((right - left) / stride) left mid left scratch

/-- Merges neighbouring runs of `width` words over the whole length. -/
@[specialize] def mergePairs (a : σ) (stride base length width : Nat) :
    Nat → Nat → Words k → Except Fault (Words k)
  | 0, _, scratch => .ok scratch
  | fuel + 1, left, scratch =>
      if left < length then do
        let right := min (left + 2 * width) length
        let scratch ← mergeTwo a stride base left (min (left + width) length) right scratch
        mergePairs a stride base length width fuel right scratch
      else .ok scratch

end Runs

@[specialize] def mergePasses [BulkCells σ k] (stride base length : Nat) :
    Nat → Nat → σ → Words k → Except Fault (σ × Words k)
  | 0, _, a, scratch => .ok (a, scratch)
  | fuel + 1, width, a, scratch =>
      if width < length then do
        let scratch ← mergePairs a stride base length width length 0 scratch
        let a ← BulkCells.writeRange a base scratch
        mergePasses stride base length fuel (2 * width) a scratch
      else .ok (a, scratch)

section Chunks
variable [Sortable σ k]

@[specialize] def sortChunk (a : σ) (stride start stop : Nat) : Except Fault σ :=
  if stride = 1 then Sortable.quickSort a start stop else quickSortRecords a stride start stop

@[specialize] def sortChunks (stride chunk stop : Nat) : Nat → Nat → σ → Except Fault σ
  | 0, _, a => .ok a
  | fuel + 1, start, a =>
      if start < stop then do
        let next := min (start + chunk) stop
        sortChunks stride chunk stop fuel next (← sortChunk a stride start next)
      else .ok a

/-- The words in a chunk: the largest power of two of records within the limit. -/
def chunkWords (records limit stride : Nat) : Nat := (1 <<< (min records (max limit 1)).log2) * stride

@[specialize] def sortInChunks (a : σ) (stride start stop limit : Nat) : Except Fault σ :=
  let records := (stop - start) / stride
  if records ≤ 1 then .ok a else sortChunks stride (chunkWords records limit stride) stop records start a

end Chunks

/-- Merges the sorted chunks of a range through a scratch array of its length. -/
@[specialize] def mergeChunks [BulkCells σ k] (a : σ) (stride start stop : Nat) (scratch : Words k) (limit : Nat) :
    Except Fault σ := do
  let length := stop - start
  let records := length / stride
  if records ≤ 1 then return a
  else do
    let (a, _) ← mergePasses stride start length records (chunkWords records limit stride) a scratch
    return a

/-- Sorts whole records through a scratch array of at least as many words. -/
@[specialize] def mergeThrough [Sortable σ k] (a : σ) (stride start stop : Nat) (scratch : Words k) (limit : Nat) :
    Except Fault σ :=
  let length := stop - start
  if length / stride ≤ 1 then .ok a
  else if scratch.size < length then .error .broken
  else do
    let a ← sortInChunks a stride start stop limit
    mergeChunks a stride start stop (scratch.extract 0 length) limit

/-- The heap holds fewer than `2 ^ 63` bytes. -/
def checkHeap (k : Width) (n : Nat) : Except Fault Unit :=
  if n * k.bytes < 1 <<< 63 then .ok () else .error .allocation

/-- The scratch array is filled in after the chunks are sorted: by then the range is known to exist. -/
@[specialize] def mergeSortRecords [Sortable σ k] (a : σ) (stride start stop : Nat) : Except Fault σ := do
  if stop ≤ start then return a
  else do
    checkHeap k (stop - start)
    let a ← sortInChunks a stride start stop defaultChunk
    mergeChunks a stride start stop (Array.replicate (stop - start) Word.zero) defaultChunk

end Sorting
end PagedWords
