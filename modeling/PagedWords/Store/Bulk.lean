import PagedWords.Store.Basic

/-! # Range operations on stores -/
namespace PagedWords.Store
variable {k : Width} {τ : Type}

def readRange : Store k → Nat → Nat → Except Fault (Words k)
  | slice ws, start, n => ws.readRange start n
  | page p, start, n => p.words.readRange start n
  | paged a, start, n => a.readRange start n
  | window base low high, start, n => do
      let (start, stop) ← windowSpan low high start (start + n)
      base.readRange start (stop - start)
  | elementwise base, start, n => Cells.readRange (elementwise base) start n

def writeRange : Store k → Nat → Words k → Except Fault (Store k)
  | slice old, start, ws => do return slice (← old.writeRange start ws)
  | page p, start, ws => do return page (← p.writeRange start ws)
  | paged a, start, ws => do return paged (← a.writeRange start ws)
  | window base low high, start, ws => do
      let (start, _) ← windowSpan low high start (start + ws.size)
      return window (← base.writeRange start ws) low high
  | elementwise base, start, ws => Cells.writeRange (elementwise base) start ws

instance : BulkCells (Store k) k where
  swapRecords := swapRecords
  writeRange := writeRange

def fill : Store k → Nat → Nat → Word k → Except Fault (Store k)
  | slice ws, start, stop, w => do return slice (← ws.fill start stop w)
  | page p, start, stop, w => do return page (← p.fill start stop w)
  | paged a, start, stop, w => do return paged (← a.fill start stop w)
  | window base low high, start, stop, w => do
      let (start, stop) ← windowSpan low high start stop
      return window (← base.fill start stop w) low high
  | elementwise base, start, stop, w => Cells.fill (elementwise base) start stop w

/-- Callbacks on a window see positions in the window. -/
def fold : Store k → Nat → Nat → (τ → Nat → Word k → τ) → τ → Except Fault τ
  | slice ws, start, stop, f, t => ws.fold start stop f t
  | page p, start, stop, f, t => p.words.fold start stop f t
  | paged a, start, stop, f, t => a.fold start stop f t
  | window base low high, start, stop, f, t => do
      let (start, stop) ← windowSpan low high start stop
      base.fold start stop (fun t pos w => f t (pos - low) w) t
  | elementwise base, start, stop, f, t => Cells.fold (elementwise base) start stop f t

def tryFold : Store k → Nat → Nat → (τ → Nat → Word k → Except Error Unit × τ) → τ →
    Except Fault (Except Error Unit × τ)
  | slice ws, start, stop, f, t => ws.tryFold start stop f t
  | page p, start, stop, f, t => p.words.tryFold start stop f t
  | paged a, start, stop, f, t => a.tryFold start stop f t
  | window base low high, start, stop, f, t =>
      match windowCheck low high start stop with
      | .error e => .ok (.error e, t)
      | .ok () => base.tryFold (low + start) (low + stop) (fun t pos w => f t (pos - low) w) t
  | elementwise base, start, stop, f, t => Cells.tryFold (elementwise base) start stop f t

def transform : Store k → Nat → Nat → (τ → Nat → Word k → Word k × τ) → τ →
    Except Fault (Store k × τ)
  | slice ws, start, stop, f, t => do
      let (ws, t) ← ws.transform start stop f t
      return (slice ws, t)
  | page p, start, stop, f, t => do
      let (p, t) ← p.transform start stop f t
      return (page p, t)
  | paged a, start, stop, f, t => do
      let (a, t) ← a.transform start stop f t
      return (paged a, t)
  | window base low high, start, stop, f, t => do
      let (start, stop) ← windowSpan low high start stop
      let (base, t) ← base.transform start stop (fun t pos w => f t (pos - low) w) t
      return (window base low high, t)
  | elementwise base, start, stop, f, t => Cells.transform (elementwise base) start stop f t

def tryTransform : Store k → Nat → Nat → (τ → Nat → Word k → Except Error (Word k) × τ) → τ →
    Except Fault (Except Error Unit × Store k × τ)
  | slice ws, start, stop, f, t => do
      let (r, ws, t) ← ws.tryTransform start stop f t
      return (r, slice ws, t)
  | page p, start, stop, f, t => do
      let (r, p, t) ← p.tryTransform start stop f t
      return (r, page p, t)
  | paged a, start, stop, f, t => do
      let (r, a, t) ← a.tryTransform start stop f t
      return (r, paged a, t)
  | window base low high, start, stop, f, t =>
      match windowCheck low high start stop with
      | .error e => .ok (.error e, window base low high, t)
      | .ok () => do
          let (r, base, t) ← base.tryTransform (low + start) (low + stop) (fun t pos w => f t (pos - low) w) t
          return (r, window base low high, t)
  | elementwise base, start, stop, f, t => Cells.tryTransform (elementwise base) start stop f t

/-- The words of a range, if the store has them in one piece. -/
def slice? : Store k → Nat → Nat → Except Fault (Option (Words k))
  | slice ws, start, stop => .ok (ws.slice? start stop)
  | page p, start, stop => .ok (p.words.slice? start stop)
  | paged a, start, stop => a.slice? start stop
  | window base low high, start, stop =>
      if high - low < stop then .ok none
      else do base.slice? (← addPosition low start) (low + stop)
  | elementwise _, _, _ => .ok none

/-- The words of a range, if the store has them in one piece and takes writes there. -/
def writableSlice? : Store k → Nat → Nat → Except Fault (Option (Words k))
  | slice ws, start, stop => .ok (ws.slice? start stop)
  | page p, start, stop => .ok (p.writableSlice? start stop)
  | paged a, start, stop => a.writableSlice? start stop
  | window base low high, start, stop =>
      if high - low < stop then .ok none
      else do base.writableSlice? (← addPosition low start) (low + stop)
  | elementwise _, _, _ => .ok none

/-- Changes a range that lies in one piece as a whole; answers `none` for any other. -/
def modifySlice? {α : Type} (s : Store k) (start stop : Nat) (f : Words k → Except Fault (α × Words k)) :
    Except Fault (Option α × Store k) := do
  match ← s.writableSlice? start stop with
  | none => return (none, s)
  | some ws => do
      let (x, ws) ← f ws
      return (some x, ← s.writeRange start ws)

/-- Writes go to their file at once, so nothing is left to be forced out. -/
def force (_ : Store k) : Except Error Unit := .ok ()

def adviseRange : Store k → Nat → Nat → Except Fault Unit
  | page p, start, stop => p.advise start stop
  | paged a, start, stop => a.advise start stop
  | window base low high, start, stop =>
      if min stop (high - low) ≤ start then .ok ()
      else base.adviseRange (low + start) (low + min stop (high - low))
  | slice _, _, _ => .ok ()
  | elementwise _, _, _ => .ok ()

def advise : Store k → Except Fault Unit
  | page p => p.advise 0 p.size
  | paged a => a.adviseAll
  | window base low high => base.adviseRange low high
  | slice _ => .ok ()
  | elementwise _ => .ok ()

end PagedWords.Store
