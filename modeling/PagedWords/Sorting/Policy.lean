import PagedWords.Sorting.Merge
import PagedWords.Sorting.Scratch

/-!
# The sorts on offer, and the policy that chooses between memory and a scratch file

A sort of records first validates the range, then decides whether it needs a scratch file, and only
then moves words: a sort that answers an error has moved none.
-/
namespace PagedWords

/-- From how many records on a range is sorted through a scratch file, and in which folder. -/
structure SortingPolicy where
  folder : Folder
  memoryLimit : Nat

namespace SortingPolicy

/-- A folder is told by its path. -/
instance : BEq SortingPolicy := ⟨fun c d => c.folder.path == d.folder.path && c.memoryLimit == d.memoryLimit⟩

def defaultLimit : Nat := 1 <<< 20

/-- The policy for the system's folder of temporary files. -/
def default (temporary : Folder) : SortingPolicy := ⟨temporary, defaultLimit⟩

def withLimit (c : SortingPolicy) (limit : Nat) : SortingPolicy := { c with memoryLimit := limit }

def validate (c : SortingPolicy) : Except Error Unit := do
  checkArgument (0 < c.memoryLimit) "memory_sort_limit" "memory_sort_limit > 0"
  checkArgument c.folder.isFolder "temp_dir" "temp_dir is an existing directory"

end SortingPolicy

inductive SortAlgorithm | insertion | quick | merge deriving DecidableEq, Repr

/-- In memory by one algorithm; through a scratch file; or as a limit on the records in memory says. -/
inductive RecordSort | inMemory (algorithm : SortAlgorithm) | external | limited (memoryLimit : Nat)
deriving DecidableEq, Repr

/-- What a sort of records leaves behind. -/
structure SortOutcome (σ : Type) where
  result : Except Error Unit
  storage : σ
  folder : Folder

namespace SortOutcome
variable {σ ρ : Type}

def map (f : σ → ρ) (o : SortOutcome σ) : SortOutcome ρ := ⟨o.result, f o.storage, o.folder⟩

def refused (e : Error) (a : σ) (folder : Folder) : SortOutcome σ := ⟨.error e, a, folder⟩

def done (folder : Folder) (a : σ) : SortOutcome σ := ⟨.ok (), a, folder⟩

end SortOutcome

namespace Sorting
variable {σ : Type} {k : Width} [Sortable σ k]

/-- Sorts words; positions outside the storage end the run. -/
@[specialize] def sort (algorithm : SortAlgorithm) (a : σ) (start stop : Nat) : Except Fault σ :=
  match algorithm with
  | .insertion => insertionSort a start stop
  | .quick => quickSort a start stop
  | .merge => mergeSortRecords a 1 start stop

@[specialize] def sortInMemory (algorithm : SortAlgorithm) (a : σ) (stride start stop : Nat) : Except Fault σ :=
  match algorithm with
  | .insertion => insertionSortRecords a stride start stop
  | .quick => quickSortRecords a stride start stop
  | .merge => mergeSortRecords a stride start stop

/-- At most one record needs no scratch file. -/
@[specialize] def sortThroughFile (chunk : Nat) (folder : Folder) (a : σ) (stride start stop : Nat) :
    Except Fault (SortOutcome σ) := do
  if (stop - start) / stride ≤ 1 then return .done folder a
  match Scratch.create folder start stop with
  | (.error e, left) => return .refused e a left
  | (.ok file, used) =>
      let a ← mergeThrough a stride start stop file.words chunk
      return .done (file.release used) a

@[specialize] def sortRecords (how : RecordSort) (folder : Folder) (a : σ) (stride start stop : Nat) :
    Except Fault (SortOutcome σ) :=
  match checkRecords start stop (Cells.size a) stride with
  | .error e => .ok (.refused e a folder)
  | .ok () =>
      match how with
      | .inMemory algorithm => .done folder <$> sortInMemory algorithm a stride start stop
      | .external => sortThroughFile defaultChunk folder a stride start stop
      | .limited memoryLimit =>
          if (stop - start) / stride < memoryLimit then .done folder <$> quickSortRecords a stride start stop
          else sortThroughFile memoryLimit folder a stride start stop

end Sorting
end PagedWords
