import PagedWords.Partition

/-!
# The page-local pieces of a range

A range is cut where it crosses from one page to the next. The cut is made lazily, piece by piece:
a range may reach far beyond the pages there are, and the first piece without a page ends the run.
-/
namespace PagedWords

/-- A piece of a range on one page: places `start..stop` there, positions from `logical` on. -/
structure Piece where
  page : Nat
  start : Nat
  stop : Nat
  logical : Nat
deriving DecidableEq, Repr

namespace Piece

def length (c : Piece) : Nat := c.stop - c.start

end Piece

namespace Partition

/-- The piece that starts at `pos`, and the position after it. -/
def piece (p : Partition) (pos stop : Nat) : Except Fault (Piece × Nat) := do
  let next ← p.pageStop pos stop
  let last ← p.stopOffset pos next
  return (⟨p.page pos, p.offset pos, last, pos⟩, next)

@[specialize] def foldFrom {β : Type} (p : Partition) (stop : Nat) (f : β → Piece → Except Fault β) :
    Nat → Nat → β → Except Fault β
  | 0, _, b => .ok b
  | fuel + 1, pos, b =>
      if stop ≤ pos then .ok b
      else do
        let (c, next) ← p.piece pos stop
        foldFrom p stop f fuel next (← f b c)

/-- Runs `f` over the pieces of `start..stop`; each holds a word, so their number is bounded. -/
@[specialize] def foldPieces {β : Type} (p : Partition) (start stop : Nat)
    (f : β → Piece → Except Fault β) (b : β) : Except Fault β :=
  p.foldFrom stop f (stop - start) start b

@[specialize] def tryFoldFrom {β : Type} (p : Partition) (stop : Nat)
    (f : β → Piece → Except Fault (Except Error Unit × β)) :
    Nat → Nat → β → Except Fault (Except Error Unit × β)
  | 0, _, b => .ok (.ok (), b)
  | fuel + 1, pos, b =>
      if stop ≤ pos then .ok (.ok (), b)
      else do
        let (c, next) ← p.piece pos stop
        match ← f b c with
        | (.error e, b) => return (.error e, b)
        | (.ok (), b) => tryFoldFrom p stop f fuel next b

/-- Runs `f` over the pieces of `start..stop` until it answers an error. -/
@[specialize] def tryFoldPieces {β : Type} (p : Partition) (start stop : Nat)
    (f : β → Piece → Except Fault (Except Error Unit × β)) (b : β) :
    Except Fault (Except Error Unit × β) :=
  p.tryFoldFrom stop f (stop - start) start b

/-- All pieces of `start..stop`, in order. -/
def pieces (p : Partition) (start stop : Nat) : Except Fault (List Piece) :=
  p.foldPieces start stop (fun cs c => .ok (cs ++ [c])) []

end Partition
end PagedWords
