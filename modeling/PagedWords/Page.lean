import PagedWords.ByteBuffer
import PagedWords.Words
import PagedWords.Sorting.Policy

/-!
# Pages: words in one piece, on the heap or mapped from a file

A read-only page refuses writes as a whole, before it looks at positions or ranges.
-/
namespace PagedWords

/-- The part of a file that a page shows, from byte `offset` on. -/
structure Region where
  file : String
  offset : Nat
  access : Access
deriving DecidableEq, Repr

structure Page (k : Width) where
  words : Words k
  region : Option Region
deriving DecidableEq

namespace Page
variable {k : Width} {τ : Type}

def ofWords (ws : Words k) : Page k := ⟨ws, none⟩

instance : Inhabited (Page k) := ⟨ofWords #[]⟩

def allocate (host : Host) (k : Width) (held n : Nat) : Except Fault (Except Error ByteBuffer) := do
  return (← ByteBuffer.zeroedWords host k held n).mapError (Error.io s!"allocate page of {n} words")

def ofBuffer (b : ByteBuffer) : Page k := ofWords (Array.replicate (b.size / k.bytes) Word.zero)

def zeroed (host : Host) (n : Nat) : Except Fault (Except Error (Page k)) := do
  return (← allocate host k 0 n).map ofBuffer

def size (p : Page k) : Nat := p.words.size

def isMapped (p : Page k) : Bool := p.region.isSome

def isWritable (p : Page k) : Bool :=
  match p.region with
  | some r => r.access == .readWrite
  | none => true

def locked : Error := .readOnly "read-only page"

def kind (p : Page k) : String :=
  match p.region with
  | none => "heap"
  | some r => match r.access with
    | .readWrite => "mapped"
    | .readOnly => "mapped-ro"

def describe (p : Page k) : String := s!"Page \x7b kind: \"{p.kind}\", len: {p.size} \x7d"

/-- Changes the words of a writable page; the run ends on any other. -/
@[inline] def modify (p : Page k) (f : Words k → Except Fault (Words k)) : Except Fault (Page k) :=
  if p.isWritable then
    match p with
    | ⟨ws, region⟩ => do return ⟨← f ws, region⟩
  else raise locked

@[inline] def modifyWith (p : Page k) (f : Words k → Except Fault (Words k × τ)) : Except Fault (Page k × τ) :=
  if p.isWritable then
    match p with
    | ⟨ws, region⟩ => do
        let (ws, t) ← f ws
        return (⟨ws, region⟩, t)
  else raise locked

def get (p : Page k) (pos : Nat) : Except Fault (Word k) := p.words.get pos

def set (p : Page k) (pos : Nat) (w : Word k) : Except Fault (Page k) := p.modify (fun ws => ws.set pos w)

instance : Cells (Page k) k where
  size := size
  get := get
  set := set

def swap (p : Page k) (i j : Nat) : Except Fault (Page k) := p.modify (fun ws => Cells.swap ws i j)

def swapRecords (p : Page k) (n i j : Nat) : Except Fault (Page k) := p.modify (fun ws => ws.swapRecords n i j)

def writeRange (p : Page k) (start : Nat) (ws : Words k) : Except Fault (Page k) :=
  p.modify (fun old => old.writeRange start ws)

def fill (p : Page k) (start stop : Nat) (w : Word k) : Except Fault (Page k) :=
  p.modify (fun ws => ws.fill start stop w)

@[specialize] def transform (p : Page k) (start stop : Nat) (f : τ → Nat → Word k → Word k × τ) (t : τ) :
    Except Fault (Page k × τ) :=
  p.modifyWith (fun ws => ws.transform start stop f t)

@[specialize] def tryTransform (p : Page k) (start stop : Nat)
    (f : τ → Nat → Word k → Except Error (Word k) × τ) (t : τ) :
    Except Fault (Except Error Unit × Page k × τ) :=
  if p.isWritable then
    match p with
    | ⟨ws, region⟩ => do
        let (r, ws, t) ← ws.tryTransform start stop f t
        return (r, ⟨ws, region⟩, t)
  else .ok (.error locked, p, t)

def copyOf (host : Host) (ws : Words k) : Except Fault (Except Error (Page k)) := do
  match ← zeroed host ws.size with
  | .error e => return .error e
  | .ok p => .ok <$> p.writeRange 0 ws

/-- The words of a range, for writing. -/
def writableSlice? (p : Page k) (start stop : Nat) : Option (Words k) :=
  if p.isWritable then p.words.slice? start stop else none

def sort (algorithm : SortAlgorithm) (p : Page k) (start stop : Nat) : Except Fault (Page k) :=
  p.modify (fun ws => Sorting.sort algorithm ws start stop)

def sortRecords (how : RecordSort) (folder : Folder) (p : Page k) (stride start stop : Nat) :
    Except Fault (SortOutcome (Page k)) :=
  if p.isWritable then
    match p with
    | ⟨ws, region⟩ => do
        let o ← Sorting.sortRecords how folder ws stride start stop
        return o.map (fun ws => ⟨ws, region⟩)
  else .ok (.refused locked p folder)

/-- An access hint changes nothing, but its byte range has to be one. -/
def advise (_ : Page k) (start stop : Nat) : Except Fault Unit := do
  if stop ≤ start then return ()
  let _ ← mulPosition start k.bytes
  let _ ← mulPosition (stop - start) k.bytes

theorem modify_of_locked {p : Page k} (h : p.isWritable = false) (f : Words k → Except Fault (Words k)) :
    p.modify f = raise locked := by simp [modify, h]

theorem modify_of_writable {p : Page k} (h : p.isWritable = true) (f : Words k → Except Fault (Words k)) :
    p.modify f = (fun ws => ⟨ws, p.region⟩) <$> f p.words := by
  simp only [modify, h, if_true]
  cases f p.words <;> rfl

end Page
end PagedWords
