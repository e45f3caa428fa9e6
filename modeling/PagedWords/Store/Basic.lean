import PagedWords.Paged.Bulk

/-!
# Stores: arrays of every kind, and windows onto them

A window shows the words `low..high` of another store as positions from 0 on. Its operations with an
error answer check their range against the window; the others take a range outside as broken. An
elementwise store lets through single words only, so all its range operations go word by word.
-/
namespace PagedWords

inductive Store (k : Width)
  | slice (ws : Words k)
  | page (p : Page k)
  | paged (a : Paged k)
  | window (base : Store k) (low high : Nat)
  | elementwise (base : Store k)

/-- The range `start..stop` of a window from `low` to `high`, told in the store below. -/
def windowSpan (low high start stop : Nat) : Except Fault (Nat × Nat) :=
  if start ≤ stop ∧ stop ≤ high - low then .ok (low + start, low + stop) else .error .broken

def windowCheck (low high start stop : Nat) : Except Error Unit := checkRange start stop (high - low)

namespace Store
variable {k : Width}

def size : Store k → Nat
  | slice ws => ws.size
  | page p => p.size
  | paged a => a.size
  | window _ low high => high - low
  | elementwise base => base.size

/-- The store in which the windows and wrappers lie. -/
def root : Store k → Store k
  | window base _ _ => base.root
  | elementwise base => base.root
  | s => s

def get : Store k → Nat → Except Fault (Word k)
  | slice ws, pos => ws.get pos
  | page p, pos => p.get pos
  | paged a, pos => a.get pos
  | window base low high, pos =>
      if pos < high - low then base.get (low + pos)
      else raise (.outOfBounds pos (high - low) 0 pos)
  | elementwise base, pos => base.get pos

def set : Store k → Nat → Word k → Except Fault (Store k)
  | slice ws, pos, w => do return slice (← ws.set pos w)
  | page p, pos, w => do return page (← p.set pos w)
  | paged a, pos, w => do return paged (← a.set pos w)
  | window base low high, pos, w =>
      if pos < high - low then do return window (← base.set (low + pos) w) low high
      else raise (.outOfBounds pos (high - low) 0 pos)
  | elementwise base, pos, w => do return elementwise (← base.set pos w)

instance : Cells (Store k) k where
  size := size
  get := get
  set := set

@[simp] theorem size_cells (s : Store k) : Cells.size s = s.size := rfl
@[simp] theorem get_cells (s : Store k) (pos : Nat) : Cells.get s pos = s.get pos := rfl
@[simp] theorem set_cells (s : Store k) (pos : Nat) (w : Word k) : Cells.set s pos w = s.set pos w := rfl

def window? (s : Store k) (start stop : Nat) : Except Error (Store k) := do
  checkRange start stop s.size
  return window s start stop

/-- Narrows a window to a range of its own positions. -/
def narrow? (s : Store k) (start stop : Nat) : Except Error (Store k) :=
  match s with
  | window base low high => do
      checkRange start stop (high - low)
      return window base (low + start) (low + stop)
  | s => s.window? start stop

/-- Where the first word of a window lies in the store below. -/
def offset : Store k → Nat
  | window _ low _ => low
  | _ => 0

def contents (s : Store k) : List (Word k) :=
  match s.root with
  | slice ws => ws.toList
  | page p => p.words.toList
  | paged a => a.toList
  | _ => []

def tryGet (s : Store k) (pos : Nat) : Except Fault (Except Error (Word k)) :=
  match s with
  | paged a => a.tryGet pos
  | s => Cells.tryGet s pos

def trySet (s : Store k) (pos : Nat) (w : Word k) : Except Fault (Except Error Unit × Store k) :=
  match s with
  | paged a => do
      let (r, a) ← a.trySet pos w
      return (r, paged a)
  | s => Cells.trySet s pos w

def swap (s : Store k) (i j : Nat) : Except Fault (Store k) :=
  match s with
  | page p => do return page (← p.swap i j)
  | s => Cells.swap s i j

/-- Only slices and pages swap records as a whole. -/
def swapRecords (s : Store k) (n i j : Nat) : Except Fault (Store k) :=
  match s with
  | slice ws => do return slice (← ws.swapRecords n i j)
  | page p => do return page (← p.swapRecords n i j)
  | s => Cells.swapRecords n s i j

def increment (s : Store k) (pos : Nat) : Except Fault (Word k × Store k) := Cells.increment s pos

end Store
end PagedWords
