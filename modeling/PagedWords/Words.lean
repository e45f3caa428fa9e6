import PagedWords.Cells

/-! # Words in one piece: an array whose ranges are checked as a whole -/
namespace PagedWords.Words
variable {k : Width} {τ : Type}

def get (a : Words k) (pos : Nat) : Except Fault (Word k) :=
  if h : pos < a.size then .ok a[pos] else .error .badIndex

def set (a : Words k) (pos : Nat) (w : Word k) : Except Fault (Words k) :=
  if h : pos < a.size then .ok (Array.set a pos w h) else .error .badIndex

instance : Cells (Words k) k where
  size := Array.size
  get := get
  set := set

@[simp] theorem size_cells (a : Words k) : Cells.size a = a.size := rfl
@[simp] theorem get_cells (a : Words k) (pos : Nat) : Cells.get a pos = a.get pos := rfl
@[simp] theorem set_cells (a : Words k) (pos : Nat) (w : Word k) : Cells.set a pos w = a.set pos w := rfl

theorem get_of_lt {a : Words k} {pos : Nat} (h : pos < a.size) : get a pos = .ok a[pos] := dif_pos h

theorem set_of_lt {a : Words k} {pos : Nat} (w : Word k) (h : pos < a.size) :
    set a pos w = .ok (Array.set a pos w h) := dif_pos h

/-- A slice ends the run unless it is a range of the array, be it empty. -/
def checkSlice (a : Words k) (start stop : Nat) : Except Fault Unit :=
  if start ≤ stop ∧ stop ≤ a.size then .ok () else .error .badIndex

/-- Swaps two records; equal positions are not looked at, overlapping records end the run. -/
def swapRecords (a : Words k) (n i j : Nat) : Except Fault (Words k) := do
  if i = j then return a
  let low := min i j
  let high := max i j
  if high ≤ a.size ∧ low + n ≤ high ∧ high + n ≤ a.size then Cells.swapRecords n a i j
  else .error .badIndex

def readRange (a : Words k) (start n : Nat) : Except Fault (Words k) := do
  a.checkSlice start (start + n)
  Cells.readRange a start n

def writeRange (a : Words k) (start : Nat) (ws : Words k) : Except Fault (Words k) := do
  a.checkSlice start (start + ws.size)
  Cells.writeRange a start ws

instance : BulkCells (Words k) k where
  swapRecords := swapRecords
  writeRange := writeRange

def fill (a : Words k) (start stop : Nat) (w : Word k) : Except Fault (Words k) := do
  a.checkSlice start stop
  Cells.fill a start stop w

@[specialize] def fold (a : Words k) (start stop : Nat) (f : τ → Nat → Word k → τ) (t : τ) :
    Except Fault τ := do
  a.checkSlice start stop
  Cells.fold a start stop f t

@[specialize] def tryFold (a : Words k) (start stop : Nat)
    (f : τ → Nat → Word k → Except Error Unit × τ) (t : τ) : Except Fault (Except Error Unit × τ) := do
  a.checkSlice start stop
  Cells.tryFold a start stop f t

@[specialize] def transform (a : Words k) (start stop : Nat) (f : τ → Nat → Word k → Word k × τ) (t : τ) :
    Except Fault (Words k × τ) := do
  a.checkSlice start stop
  Cells.transform a start stop f t

@[specialize] def tryTransform (a : Words k) (start stop : Nat)
    (f : τ → Nat → Word k → Except Error (Word k) × τ) (t : τ) :
    Except Fault (Except Error Unit × Words k × τ) := do
  a.checkSlice start stop
  Cells.tryTransform a start stop f t

/-- The words of a range, if it is one of the array's. -/
def slice? (a : Words k) (start stop : Nat) : Option (Words k) :=
  if start ≤ stop ∧ stop ≤ a.size then some (a.extract start stop) else none

end PagedWords.Words
