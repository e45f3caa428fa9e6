import PagedWords.Page
import PagedWords.Partition.Pieces

/-! # Arrays cut into pages -/
namespace PagedWords

/-- One array of `size` words over a fixed list of pages. -/
structure Paged (k : Width) where
  partition : Partition
  pages : Array (Page k)
  size : Nat
deriving DecidableEq

namespace Paged
variable {k : Width}

def toList (a : Paged k) : List (Word k) := a.pages.toList.flatMap (fun p => p.words.toList)

/-- Page `i` has as many words as the partition says, and the pages reach to the end. -/
structure WellFormed (a : Paged k) : Prop where
  partition : a.partition.Valid
  count : a.pages.size = a.partition.pageCount a.size
  length : ∀ (i : Nat) (p : Page k), a.pages[i]? = some p → a.partition.pageLength i a.size = .ok p.size

def isWritable (a : Paged k) : Bool := a.pages.all (fun p => p.isWritable)

def describe (a : Paged k) : String :=
  s!"PagingArray \x7b scheme: {a.partition.describe}, size: {a.size}, pages: {a.pages.size} \x7d"

/-- The error of a position, told with its place in the partition. -/
def outOfBounds (a : Paged k) (pos : Nat) : Error :=
  .outOfBounds pos a.size (a.partition.page pos) (a.partition.offset pos)

/-- Buffers for the pages from page `i` on, each asked for beside the memory of those before it. -/
def allocateFrom (host : Host) (k : Width) (partition : Partition) (size : Nat) :
    Nat → Nat → Nat → Array ByteBuffer → Except Fault (Except Error (Array ByteBuffer))
  | 0, _, _, buffers => .ok (.ok buffers)
  | n + 1, i, held, buffers => do
      match ← Page.allocate host k held (← partition.pageLength i size) with
      | .error e => return .error e
      | .ok b => allocateFrom host k partition size n (i + 1) (held + b.capacity) (buffers.push b)

def zeroed (host : Host) (partition : Partition) (size : Nat) : Except Fault (Except Error (Paged k)) := do
  match ← allocateFrom host k partition size (partition.pageCount size) 0 0 #[] with
  | .error e => return .error e
  | .ok buffers => return .ok ⟨partition, buffers.map Page.ofBuffer, size⟩

def page (a : Paged k) (i : Nat) : Except Fault (Page k) :=
  match a.pages[i]? with
  | some p => .ok p
  | none => .error .badIndex

@[inline] def modifyPage (a : Paged k) (i : Nat) (f : Page k → Except Fault (Page k)) : Except Fault (Paged k) := do
  let p ← f (← a.page i)
  return { a with pages := a.pages.setIfInBounds i p }

def get (a : Paged k) (pos : Nat) : Except Fault (Word k) :=
  if a.size ≤ pos then raise (a.outOfBounds pos)
  else
    match a.pages[a.partition.page pos]? with
    | some p => p.get (a.partition.offset pos)
    | none => .error .badIndex

/-- Whether the page at `i` takes a write at place `j`. -/
def checkSlot (a : Paged k) (i j : Nat) : Except Fault Unit :=
  match a.pages[i]? with
  | none => .error .badIndex
  | some p =>
      if !p.isWritable then raise Page.locked
      else if j < p.words.size then .ok ()
      else .error .badIndex

def putWord (j : Nat) (w : Word k) (p : Page k) : Page k :=
  match p with
  | ⟨ws, region⟩ => ⟨ws.setIfInBounds j w, region⟩

/-- Checks the place first, so that the write itself can happen in place. -/
def set (a : Paged k) (pos : Nat) (w : Word k) : Except Fault (Paged k) := do
  if a.size ≤ pos then raise (a.outOfBounds pos)
  else
    let i := a.partition.page pos
    let j := a.partition.offset pos
    a.checkSlot i j
    match a with
    | ⟨partition, pages, size⟩ => return ⟨partition, pages.modify i (putWord j w), size⟩

instance : Cells (Paged k) k where
  size := size
  get := get
  set := set

def tryGet (a : Paged k) (pos : Nat) : Except Fault (Except Error (Word k)) :=
  if pos < a.size then .ok <$> a.get pos else .ok (.error (a.outOfBounds pos))

/-- A read-only page is an answer here, not the end of the run. -/
def trySet (a : Paged k) (pos : Nat) (w : Word k) : Except Fault (Except Error Unit × Paged k) := do
  if a.size ≤ pos then return (.error (a.outOfBounds pos), a)
  let p ← a.page (a.partition.page pos)
  if p.isWritable then return (.ok (), ← a.set pos w)
  else return (.error Page.locked, a)

/-- The piece that `start..stop` makes up if it lies in the array, holds a word and meets one page. -/
def confined? (a : Paged k) (start stop : Nat) : Option Piece :=
  if stop ≤ a.size ∧ a.partition.samePage start stop then
    some ⟨a.partition.page start, a.partition.offset start, a.partition.offset (stop - 1) + 1, start⟩
  else none

/-- Refuses a range with a page on it that is read-only. -/
def checkWritable (a : Paged k) (start stop : Nat) : Except Fault (Except Error Unit) := do
  let (r, _) ← a.partition.tryFoldPieces start (min stop a.size)
    (fun _ c => do
      let p ← a.page c.page
      if p.isWritable then return (.ok (), ()) else return (.error (.readOnly s!"range {start}..{stop}"), ()))
    ()
  return r

end Paged
end PagedWords
