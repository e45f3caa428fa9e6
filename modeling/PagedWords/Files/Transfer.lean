import PagedWords.Files.Mapping

/-!
# Words moved between arrays and files

An array is written to a file as a whole, and loaded from a file page by page. If its pages show that very
file, each page that is loaded changes what the next one is loaded from.
-/
namespace PagedWords

namespace Host

/-- What a read of `n` bytes from `pos` on brings. One that is refused may have brought some of them; for none the
system is not asked. -/
def read (host : Host) (file : String) (bytes : Bytes) (pos n : Nat) : Bytes × Except IoCause Unit :=
  if n = 0 then (#[], .ok ())
  else
    match host.file file (.reading pos n) with
    | .ok () => bytes.readAt pos n
    | .error refusal => (bytes.slice pos (min refusal.moved n), .error refusal.cause)

theorem read_of_granted {host : Host} {file : String} {bytes : Bytes} {pos n : Nat} (hn : 0 < n)
    (h : host.file file (.reading pos n) = .ok ()) : host.read file bytes pos n = bytes.readAt pos n := by
  rw [read, h, if_neg (Nat.ne_of_gt hn)]

/-- The `n` words from word position `pos` on. -/
def readWords {k : Width} (host : Host) (file : String) (bytes : Bytes) (pos n : Nat) :
    Except Fault (Except IoCause (Words k)) := do
  let first ← mulPosition pos k.bytes
  let (found, r) := host.read file bytes first (n * k.bytes)
  return r.map (fun () => (Bytes.toWords found n).toArray)

end Host

namespace Page
variable {k : Width}

/-- What arrives in a piece of a page when it is read from byte `first` of a file on. If the piece shows some of the
bytes that are read, but in other places, the system decides. -/
def arriving (host : Host) (p : Page k) (file : String) (bytes : Bytes) (first : Nat) (c : Piece) :
    Bytes × Except IoCause Unit :=
  let n := c.length * k.bytes
  let (found, r) := host.read file bytes first n
  match p.place? c.start with
  | some place =>
      if place.file = file ∧ place.offset ≠ first ∧ place.offset < first + n ∧ first < place.offset + n then
        (host.overlapped ((place.offset : Int) - first) found, r)
      else (found, r)
  | none => (found, r)

end Page

namespace Paged
variable {k : Width}

def showsFile (a : Paged k) (file : String) : Bool := a.pages.any (fun p => p.region.any (fun r => r.file == file))

/-- Writes all words to a new file, or to an old one that is cut off first. An array that shows the file has lost
its words by then. -/
def saveTo (host : Host) (a : Paged k) (d : Directory) (path : String) : Except Fault (FileOutcome Unit) :=
  let refused (cause : IoCause) (d : Directory) : Except Fault (FileOutcome Unit) := .ok ⟨.error (.io path cause), d⟩
  match d.resolve .make path with
  | .error cause => refused cause d
  | .ok name =>
      match host.step name .creating with
      | .error cause => refused cause d
      | .ok () =>
          let bytes := Bytes.ofWords a.toList
          let lost := a.showsFile name
          match host.file name (.writing bytes.size) with
          | .error refusal =>
              refused refusal.cause (d.put name (if lost then #[] else bytes.slice 0 refusal.moved))
          | .ok () =>
              if lost then .error .cutOff
              else
                match host.step name .syncing with
                | .error cause => refused cause (d.put name bytes)
                | .ok () => .ok ⟨.ok (), d.put name bytes⟩

/-- Loads a piece from a file whose word `source` belongs at position `start`. If the file ends too early,
the bytes that are there go to the front of the piece. -/
def loadPiece (host : Host) (d : Directory) (file : String) (source start : Nat) (a : Paged k) (c : Piece) :
    Except Fault (Except Error Unit × Paged k × Directory) := do
  let p ← a.page c.page
  if !p.isWritable then return (.error Page.locked, a, d)
  p.words.checkSlice c.start c.stop
  let first ← mulPosition (← addPosition source (c.logical - start)) k.bytes
  let (found, r) := p.arriving host file ((d.find? file).getD #[]) first c
  let old := Bytes.ofWords (p.words.extract c.start c.stop).toList
  let p ← p.writeRange c.start (Bytes.toWords (Bytes.overwrite old 0 found) c.length).toArray
  let d := if p.region.any (fun r => r.file == file) then p.writeThrough d else d
  return (r.mapError (Error.io "transfer from file"), { a with pages := a.pages.setIfInBounds c.page p }, d)

/-- Replaces `start..stop` by words of a file, from its word `source` on, page by page. -/
def loadFrom (host : Host) (a : Paged k) (d : Directory) (path : String) (source start stop : Nat) :
    Except Fault (Except Error Unit × Paged k) :=
  match d.open? path with
  | .error cause => .ok (.error (.io path cause), a)
  | .ok f =>
      match checkRange start stop a.size with
      | .error e => .ok (.error e, a)
      | .ok () => do
          let (r, a, _) ← a.partition.tryFoldPieces start stop
            (fun (a, d) c => loadPiece host d f.name source start a c) (a, d)
          return (r, a)

end Paged
end PagedWords
