import PagedWords.Paged.Basic

/-! # Range operations on paged arrays, page by page -/
namespace PagedWords.Paged
variable {k : Width} {τ : Type}

def readRange (a : Paged k) (start n : Nat) : Except Fault (Words k) := do
  let stop ← addPosition start n
  a.partition.foldPieces start stop
    (fun acc c => do
      let p ← a.page c.page
      return acc ++ (← p.words.readRange c.start c.length))
    #[]

def writeRange (a : Paged k) (start : Nat) (ws : Words k) : Except Fault (Paged k) := do
  let stop ← addPosition start ws.size
  a.partition.foldPieces start stop
    (fun a c =>
      let first := c.logical - start
      a.modifyPage c.page (fun p => p.writeRange c.start (ws.extract first (first + c.length))))
    a

/-- Records are swapped word by word, as they may lie across pages. -/
instance : BulkCells (Paged k) k where
  writeRange := writeRange

def ofWords (host : Host) (partition : Partition) (ws : Words k) : Except Fault (Except Error (Paged k)) := do
  match ← zeroed host partition ws.size with
  | .error e => return .error e
  | .ok a => .ok <$> a.writeRange 0 ws

def fill (a : Paged k) (start stop : Nat) (w : Word k) : Except Fault (Paged k) :=
  a.partition.foldPieces start stop (fun a c => a.modifyPage c.page (fun p => p.fill c.start c.stop w)) a

@[specialize] def fold (a : Paged k) (start stop : Nat) (f : τ → Nat → Word k → τ) (t : τ) :
    Except Fault τ :=
  a.partition.foldPieces start stop
    (fun t c => do
      let p ← a.page c.page
      p.words.fold c.start c.stop (fun t pos w => f t (pos + (c.logical - c.start)) w) t)
    t

@[specialize] def tryFold (a : Paged k) (start stop : Nat)
    (f : τ → Nat → Word k → Except Error Unit × τ) (t : τ) : Except Fault (Except Error Unit × τ) :=
  a.partition.tryFoldPieces start stop
    (fun t c => do
      let p ← a.page c.page
      p.words.tryFold c.start c.stop (fun t pos w => f t (pos + (c.logical - c.start)) w) t)
    t

@[specialize] def transform (a : Paged k) (start stop : Nat) (f : τ → Nat → Word k → Word k × τ) (t : τ) :
    Except Fault (Paged k × τ) :=
  a.partition.foldPieces start stop
    (fun (a, t) c => do
      let p ← a.page c.page
      let (p, t) ← p.transform c.start c.stop (fun t pos w => f t (pos + (c.logical - c.start)) w) t
      return ({ a with pages := a.pages.setIfInBounds c.page p }, t))
    (a, t)

@[specialize] def tryTransform (a : Paged k) (start stop : Nat)
    (f : τ → Nat → Word k → Except Error (Word k) × τ) (t : τ) :
    Except Fault (Except Error Unit × Paged k × τ) :=
  a.partition.tryFoldPieces start stop
    (fun (a, t) c => do
      let p ← a.page c.page
      let (r, p, t) ← p.tryTransform c.start c.stop (fun t pos w => f t (pos + (c.logical - c.start)) w) t
      return (r, { a with pages := a.pages.setIfInBounds c.page p }, t))
    (a, t)

/-- The words of a range that lies on one page. -/
def slice? (a : Paged k) (start stop : Nat) : Except Fault (Option (Words k)) :=
  match a.confined? start stop with
  | none => .ok none
  | some c => do
      let p ← a.page c.page
      return p.words.slice? c.start c.stop

def writableSlice? (a : Paged k) (start stop : Nat) : Except Fault (Option (Words k)) :=
  match a.confined? start stop with
  | none => .ok none
  | some c => do
      let p ← a.page c.page
      return p.writableSlice? c.start c.stop

def adviseAll (a : Paged k) : Except Fault Unit := a.pages.forM (fun p => p.advise 0 p.size)

/-- Hints past the end are cut off. -/
def advise (a : Paged k) (start stop : Nat) : Except Fault Unit :=
  a.partition.foldPieces start (min stop a.size) (fun _ c => do (← a.page c.page).advise c.start c.stop) ()

end PagedWords.Paged
