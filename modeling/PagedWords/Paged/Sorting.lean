import PagedWords.Paged.Bulk

/-! # Sorts of paged arrays: on the page that holds the range, or word by word across pages -/
namespace PagedWords.Paged
variable {k : Width}

def isSorted (a : Paged k) (start stop : Nat) : Except Fault Bool :=
  match a.confined? start stop with
  | some c => do
      let p ← a.page c.page
      Sorting.isSorted p.words c.start c.stop
  | none => Sorting.isSorted a start stop

def isSortedRecords (a : Paged k) (stride start stop : Nat) : Except Fault (Except Error Bool) :=
  match a.confined? start stop with
  | some c => do
      let p ← a.page c.page
      Sorting.isSortedRecords p.words stride c.start c.stop
  | none => Sorting.isSortedRecords a stride start stop

/-- A chunk of a sort across pages is sorted on its page, if it lies on one. -/
def quickSort (a : Paged k) (start stop : Nat) : Except Fault (Paged k) :=
  match a.confined? start stop with
  | some c => a.modifyPage c.page (fun p => p.sort .quick c.start c.stop)
  | none => Sorting.quickSort a start stop

instance : Sortable (Paged k) k where
  quickSort := quickSort

def sort (algorithm : SortAlgorithm) (a : Paged k) (start stop : Nat) : Except Fault (Paged k) :=
  match a.confined? start stop with
  | some c => a.modifyPage c.page (fun p => p.sort algorithm c.start c.stop)
  | none => Sorting.sort algorithm a start stop

/-- Across pages, read-only pages are looked for even before the range is validated. -/
def sortRecords (how : RecordSort) (folder : Folder) (a : Paged k) (stride start stop : Nat) :
    Except Fault (SortOutcome (Paged k)) :=
  match a.confined? start stop with
  | some c => do
      let p ← a.page c.page
      let o ← p.sortRecords how folder stride c.start c.stop
      return o.map (fun p => { a with pages := a.pages.setIfInBounds c.page p })
  | none => do
      match ← a.checkWritable start stop with
      | .error e => return .refused e a folder
      | .ok () => Sorting.sortRecords how folder a stride start stop

end PagedWords.Paged
