import PagedWords.Paged.Basic
import PagedWords.Search
import PagedWords.Filter

/-!
# Searches and filters of paged arrays

A range on one page is searched there, and the finding moved by the page's first position; any other
range is searched word by word through the partition.
-/
namespace PagedWords.Paged
variable {k : Width}

def search (how : Strategy) (a : Paged k) (key : Word k) (start stop : Nat) : Except Fault Finding :=
  match a.confined? start stop with
  | some c => do
      let p ← a.page c.page
      let r ← Search.search how p.words key c.start c.stop
      r.shift (← a.partition.pageStart c.page)
  | none => Search.search how a key start stop

def searchRecords (how : Strategy) (a : Paged k) (stride : Nat) (key : Word k) (start stop : Nat) :
    Except Fault (Except Error Finding) :=
  match a.confined? start stop with
  | some c => do
      let p ← a.page c.page
      match ← Search.searchRecords how p.words stride key c.start c.stop with
      | .error e => return .error e
      | .ok r => .ok <$> r.shift (← a.partition.pageStart c.page)
  | none => Search.searchRecords how a stride key start stop

def bound (how : Strategy) (a : Paged k) (key : Word k) (start stop : Nat) : Except Fault Nat :=
  match a.confined? start stop with
  | some c => do
      let p ← a.page c.page
      let pos ← Search.bound how p.words key c.start c.stop
      addPosition pos (← a.partition.pageStart c.page)
  | none => Search.bound how a key start stop

def boundRecords (a : Paged k) (stride : Nat) (key : Word k) (start stop : Nat) :
    Except Fault (Except Error Nat) :=
  match a.confined? start stop with
  | some c => do
      let p ← a.page c.page
      match ← Search.boundRecords p.words stride key c.start c.stop with
      | .error e => return .error e
      | .ok pos => .ok <$> addPosition pos (← a.partition.pageStart c.page)
  | none => Search.boundRecords a stride key start stop

/-- On every page but the last the boundary is also held down to the last key of the page, so that
each candidate is decided by the page that could hold it. -/
def filterFrom (a : Paged k) (how : Membership) (boundary : Word k) (stop : Nat) :
    Nat → Nat → Candidates k → Except Fault (Candidates k)
  | 0, _, c => .ok c
  | fuel + 1, pos, c =>
      if stop ≤ pos then .ok c
      else do
        let (piece, next) ← a.partition.piece pos stop
        if !c.hasUnvisited then return c
        let p ← a.page piece.page
        let pageBoundary ←
          if next < stop then Word.min boundary <$> p.get (piece.stop - 1) else .ok boundary
        filterFrom a how boundary stop fuel next
          (← Filter.filter p.words how pageBoundary piece.start piece.stop c)

def filter (a : Paged k) (how : Membership) (boundary : Word k) (start stop : Nat) (c : Candidates k) :
    Except Fault (Candidates k) :=
  if stop ≤ start then .ok c
  else if a.size < stop then raise (a.outOfBounds (stop - 1))
  else a.filterFrom how boundary stop (stop - start) start c

def filterRecords (a : Paged k) (how : Membership) (stride : Nat) (boundary : Word k) (start stop : Nat)
    (c : Candidates k) : Except Fault (Except Error (Candidates k)) :=
  match a.confined? start stop with
  | some piece => do
      let p ← a.page piece.page
      Filter.filterRecords p.words how stride boundary piece.start piece.stop c
  | none => Filter.filterRecords a how stride boundary start stop c

end PagedWords.Paged
