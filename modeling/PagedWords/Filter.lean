import PagedWords.Cells
import PagedWords.Candidates
import PagedWords.Span

/-!
# Filters of candidate lists against an ascending range

Candidates up to a boundary are visited. To retain is to keep those that are keys of the range, to
reject is to keep the others; the rest of the list stays as it is.
-/
namespace PagedWords

inductive Membership | retain | reject deriving DecidableEq, Repr

/-- Whether a candidate stays, given that it is a key of the range or not. -/
def Membership.keeps : Membership → Bool → Bool
  | retain, present => present
  | reject, present => !present

namespace Filter
variable {σ : Type} {k : Width} [Cells σ k]

def visit (how : Membership) (present : Bool) (c : Candidates k) : Except Fault (Candidates k) :=
  if how.keeps present then c.keep else .ok c.drop

/-- Visits up to `n` candidates that are not above the boundary, as ones that are no keys. -/
def visitAbsent (how : Membership) (boundary : Word k) : Nat → Candidates k → Except Fault (Candidates k)
  | 0, c => .ok c
  | n + 1, c =>
      if c.hasUnvisited then do
        let w ← c.current
        if boundary < w then return c
        else visitAbsent how boundary n (← visit how false c)
      else .ok c

/-- Walks along candidates and keys at once; every step passes one candidate or one key. -/
@[specialize] def walk (a : σ) (how : Membership) (stride : Nat) (boundary : Word k) (stop : Nat) :
    Nat → Nat → Word k → Candidates k → Except Fault (Candidates k)
  | 0, _, _, c => .ok c
  | fuel + 1, pos, key, c =>
      if c.hasUnvisited then do
        let w ← c.current
        if boundary < w then return c
        else if w = key then walk a how stride boundary stop fuel pos key (← visit how true c)
        else if w < key then walk a how stride boundary stop fuel pos key (← visit how false c)
        else if stop ≤ pos + stride then visitAbsent how boundary (c.stop - c.read) c
        else walk a how stride boundary stop fuel (pos + stride) (← Cells.get a (pos + stride)) c
      else .ok c

/-- An empty range leaves the candidates alone. -/
@[specialize] def walkRange (a : σ) (how : Membership) (stride : Nat) (boundary : Word k) (start stop : Nat)
    (c : Candidates k) : Except Fault (Candidates k) :=
  if stop ≤ start then .ok c
  else do
    let key ← Cells.get a start
    walk a how stride boundary stop (c.stop - c.read + (stop - start)) start key c

@[specialize] def filter (a : σ) (how : Membership) (boundary : Word k) (start stop : Nat) (c : Candidates k) :
    Except Fault (Candidates k) :=
  walkRange a how 1 boundary start stop c

@[specialize] def filterRecords (a : σ) (how : Membership) (stride : Nat) (boundary : Word k)
    (start stop : Nat) (c : Candidates k) : Except Fault (Except Error (Candidates k)) :=
  whenValid (checkRecords start stop (Cells.size a) stride) (walkRange a how stride boundary start stop c)

end Filter
end PagedWords
