import PagedWords.Fault
import PagedWords.Word

/-!
# Storage that is read and written word by word

Every operation of this module uses only `size`, `get` and `set` of the storage, in order of
position, so it means the same on every kind of storage.
-/
namespace PagedWords

/-- Storage `σ` whose words are read and written one at a time. -/
class Cells (σ : Type) (k : outParam Width) where
  size : σ → Nat
  get : σ → Nat → Except Fault (Word k)
  set : σ → Nat → Word k → Except Fault σ

namespace Cells
variable {σ τ : Type} {k : Width} [Cells σ k]

@[specialize] def swap (a : σ) (i j : Nat) : Except Fault σ := do
  let x ← get a i
  let y ← get a j
  let a ← set a i y
  set a j x

/-- Swaps the records of `n` words at `i` and `j`, word by word. -/
@[specialize] def swapRecords : Nat → σ → Nat → Nat → Except Fault σ
  | 0, a, _, _ => .ok a
  | n + 1, a, i, j => do swapRecords n (← swap a i j) (i + 1) (j + 1)

/-- The word at `pos`, and the storage with its successor there. -/
@[specialize] def increment (a : σ) (pos : Nat) : Except Fault (Word k × σ) := do
  let w ← get a pos
  return (w, ← set a pos w.succ)

@[specialize] def readFrom (a : σ) : Nat → Nat → Words k → Except Fault (Words k)
  | 0, _, acc => .ok acc
  | n + 1, pos, acc => do readFrom a n (pos + 1) (acc.push (← get a pos))

@[specialize] def readRange (a : σ) (start n : Nat) : Except Fault (Words k) :=
  readFrom a n start #[]

@[specialize] def writeList : List (Word k) → σ → Nat → Except Fault σ
  | [], a, _ => .ok a
  | w :: ws, a, pos => do writeList ws (← set a pos w) (pos + 1)

@[specialize] def writeRange (a : σ) (start : Nat) (ws : Words k) : Except Fault σ :=
  writeList ws.toList a start

@[specialize] def fillFrom (w : Word k) : Nat → σ → Nat → Except Fault σ
  | 0, a, _ => .ok a
  | n + 1, a, pos => do fillFrom w n (← set a pos w) (pos + 1)

@[specialize] def fill (a : σ) (start stop : Nat) (w : Word k) : Except Fault σ :=
  fillFrom w (stop - start) a start

@[specialize] def foldFrom (a : σ) (f : τ → Nat → Word k → τ) : Nat → Nat → τ → Except Fault τ
  | 0, _, t => .ok t
  | n + 1, pos, t => do foldFrom a f n (pos + 1) (f t pos (← get a pos))

/-- Runs `f` over the words of `start..stop` and their positions. -/
@[specialize] def fold (a : σ) (start stop : Nat) (f : τ → Nat → Word k → τ) (t : τ) : Except Fault τ :=
  foldFrom a f (stop - start) start t

@[specialize] def tryFoldFrom (a : σ) (f : τ → Nat → Word k → Except Error Unit × τ) :
    Nat → Nat → τ → Except Fault (Except Error Unit × τ)
  | 0, _, t => .ok (.ok (), t)
  | n + 1, pos, t => do
      let w ← get a pos
      match f t pos w with
      | (.error e, t) => return (.error e, t)
      | (.ok (), t) => tryFoldFrom a f n (pos + 1) t

/-- Runs `f` over the words of `start..stop` until it answers an error. -/
@[specialize] def tryFold (a : σ) (start stop : Nat)
    (f : τ → Nat → Word k → Except Error Unit × τ) (t : τ) : Except Fault (Except Error Unit × τ) :=
  tryFoldFrom a f (stop - start) start t

@[specialize] def transformFrom (f : τ → Nat → Word k → Word k × τ) :
    Nat → σ → Nat → τ → Except Fault (σ × τ)
  | 0, a, _, t => .ok (a, t)
  | n + 1, a, pos, t => do
      let (w, t) := f t pos (← get a pos)
      transformFrom f n (← set a pos w) (pos + 1) t

/-- Replaces every word of `start..stop` by what `f` makes of it. -/
@[specialize] def transform (a : σ) (start stop : Nat) (f : τ → Nat → Word k → Word k × τ) (t : τ) :
    Except Fault (σ × τ) :=
  transformFrom f (stop - start) a start t

@[specialize] def tryTransformFrom (f : τ → Nat → Word k → Except Error (Word k) × τ) :
    Nat → σ → Nat → τ → Except Fault (Except Error Unit × σ × τ)
  | 0, a, _, t => .ok (.ok (), a, t)
  | n + 1, a, pos, t => do
      let w ← get a pos
      match f t pos w with
      | (.error e, t) => return (.error e, a, t)
      | (.ok w, t) => tryTransformFrom f n (← set a pos w) (pos + 1) t

/-- Replaces the words of `start..stop` until `f` answers an error; that word and the rest stay. -/
@[specialize] def tryTransform (a : σ) (start stop : Nat) (f : τ → Nat → Word k → Except Error (Word k) × τ)
    (t : τ) : Except Fault (Except Error Unit × σ × τ) :=
  tryTransformFrom f (stop - start) a start t

/-- Reads a word, or answers that `pos` lies outside; storage without pages counts as page 0. -/
def tryGet (a : σ) (pos : Nat) : Except Fault (Except Error (Word k)) :=
  if pos < size a then .ok <$> get a pos else .ok (.error (.outOfBounds pos (size a) 0 pos))

def trySet (a : σ) (pos : Nat) (w : Word k) : Except Fault (Except Error Unit × σ) :=
  if pos < size a then return (.ok (), ← set a pos w)
  else .ok (.error (.outOfBounds pos (size a) 0 pos), a)

end Cells

/-- Storage that swaps records and writes ranges in a way of its own; by default it goes word by word. -/
class BulkCells (σ : Type) (k : outParam Width) extends Cells σ k where
  swapRecords : σ → Nat → Nat → Nat → Except Fault σ := fun a n i j => Cells.swapRecords n a i j
  writeRange : σ → Nat → Words k → Except Fault σ := Cells.writeRange

end PagedWords
