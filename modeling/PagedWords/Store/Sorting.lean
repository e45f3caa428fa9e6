import PagedWords.Store.Bulk
import PagedWords.Paged.Sorting

/-! # Sorts of stores -/
namespace PagedWords.Store
variable {k : Width}

def isSorted : Store k → Nat → Nat → Except Fault Bool
  | slice ws, start, stop => Sorting.isSorted ws start stop
  | page p, start, stop => Sorting.isSorted p.words start stop
  | paged a, start, stop => a.isSorted start stop
  | window base low high, start, stop => do
      let (start, stop) ← windowSpan low high start stop
      base.isSorted start stop
  | elementwise base, start, stop => Sorting.isSorted (elementwise base) start stop

def isSortedRecords : Store k → Nat → Nat → Nat → Except Fault (Except Error Bool)
  | slice ws, stride, start, stop => Sorting.isSortedRecords ws stride start stop
  | page p, stride, start, stop => Sorting.isSortedRecords p.words stride start stop
  | paged a, stride, start, stop => a.isSortedRecords stride start stop
  | window base low high, stride, start, stop =>
      match windowCheck low high start stop with
      | .error e => .ok (.error e)
      | .ok () => base.isSortedRecords stride (low + start) (low + stop)
  | elementwise base, stride, start, stop => Sorting.isSortedRecords (elementwise base) stride start stop

/-- Only elementwise stores are sorted through this; the others hand a sort on to what they are made of. -/
instance : Sortable (Store k) k where
  toBulkCells := inferInstance

def sort (algorithm : SortAlgorithm) : Store k → Nat → Nat → Except Fault (Store k)
  | slice ws, start, stop => do return slice (← Sorting.sort algorithm ws start stop)
  | page p, start, stop => do return page (← p.sort algorithm start stop)
  | paged a, start, stop => do return paged (← a.sort algorithm start stop)
  | window base low high, start, stop => do
      let (start, stop) ← windowSpan low high start stop
      return window (← base.sort algorithm start stop) low high
  | elementwise base, start, stop => Sorting.sort algorithm (elementwise base) start stop

def sortRecords (how : RecordSort) (folder : Folder) :
    Store k → Nat → Nat → Nat → Except Fault (SortOutcome (Store k))
  | slice ws, stride, start, stop => do
      return (← Sorting.sortRecords how folder ws stride start stop).map slice
  | page p, stride, start, stop => do return (← p.sortRecords how folder stride start stop).map page
  | paged a, stride, start, stop => do return (← a.sortRecords how folder stride start stop).map paged
  | window base low high, stride, start, stop =>
      match windowCheck low high start stop with
      | .error e => .ok (.refused e (window base low high) folder)
      | .ok () => do
          let o ← base.sortRecords how folder stride (low + start) (low + stop)
          return o.map (window · low high)
  | elementwise base, stride, start, stop => Sorting.sortRecords how folder (elementwise base) stride start stop

end PagedWords.Store
