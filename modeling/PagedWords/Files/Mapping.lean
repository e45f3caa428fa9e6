import PagedWords.Files.Directory
import PagedWords.Store.Basic

/-!
# Arrays that show files

A mapped array carries the words of its region. Writing it through puts them back into the file, and
reloading it takes them from there; a read-only array is never written through.
-/
namespace PagedWords

/-- What an attempt to change a directory leaves behind. -/
structure FileOutcome (α : Type) where
  result : Except Error α
  directory : Directory

/-- A place in a file, by its byte position. -/
structure FilePlace where
  file : String
  offset : Nat
deriving DecidableEq, Repr

namespace Region

/-- Puts bytes at the start of a region that may be written; for any other, they are not worked out. -/
@[macro_inline] def write (r : Region) (bytes : Bytes) (d : Directory) : Directory :=
  match r.access, d.file? r.file with
  | .readWrite, some f => d.putFile r.file (f.overwrite r.offset bytes)
  | _, _ => d

end Region

namespace Page
variable {k : Width}

/-- A view of `n` words of a file from word `first` on. -/
def view (host : Host) (f : OpenFile) (first n : Nat) (access : Access) : Except Error (Page k) :=
  if positionLimit ≤ first * k.bytes then .error (.invalidArgument "word_offset" "byte offset overflows u64")
  else if positionLimit ≤ n * k.bytes then .error (.invalidArgument "len" "byte length overflows usize")
  else
    match host.step f.name (.viewing (first * k.bytes) (n * k.bytes) access) with
    | .error cause => .error (.io "map page" cause)
    | .ok () => .ok ⟨(f.content.shownWords (first * k.bytes) n).toArray, some ⟨f.name, first * k.bytes, access⟩⟩

/-- Shows `n` words of a file; an empty page lies on the heap. -/
def map (host : Host) (f : OpenFile) (first n : Nat) (access : Access) : Except Fault (Except Error (Page k)) :=
  if n = 0 then zeroed host 0 else .ok (view host f first n access)

def place? (p : Page k) (pos : Nat) : Option FilePlace :=
  p.region.map (fun r => ⟨r.file, r.offset + pos * k.bytes⟩)

def writeThrough (p : Page k) (d : Directory) : Directory :=
  match p.region with
  | some r => r.write (Bytes.ofWords p.words.toList) d
  | none => d

end Page

namespace Paged
variable {k : Width}

def mapPages (host : Host) (partition : Partition) (f : OpenFile) (first size : Nat) (access : Access) :
    Nat → Nat → Array (Page k) → Except Fault (Except Error (Array (Page k)))
  | 0, _, pages => .ok (.ok pages)
  | n + 1, i, pages => do
      let base ← partition.pageStart i
      match ← Page.map host f (first + base) (← partition.pageLength i size) access with
      | .error e => return .error e
      | .ok p => mapPages host partition f first size access n (i + 1) (pages.push p)

/-- The file made long enough for the range; it may only grow if the mapping writes. -/
def lengthen (host : Host) (f : OpenFile) (required : Nat) (access : Access) : Except Error OpenFile :=
  let available := f.content.bytes.size
  if required ≤ available then .ok f
  else if access = .readOnly then
    .error (.invalidArgument "size" s!"{f.path} is {available} bytes, {required} required")
  else
    match host.step f.name (.lengthening required) with
    | .error cause => .error (.io f.path cause)
    | .ok () => .ok { f with content := f.content.grow required }

def mapOpen (host : Host) (d : Directory) (partition : Partition) (f : OpenFile) (first size : Nat)
    (access : Access) : Except Fault (FileOutcome (Paged k)) := do
  let required := (first + size) * k.bytes
  if positionLimit ≤ required then
    return ⟨.error (.invalidArgument "size" "mapped range overflows u64"), d⟩
  match host.step f.name .measuring with
  | .error cause => return ⟨.error (.io f.path cause), d⟩
  | .ok () =>
      match lengthen host f required access with
      | .error e => return ⟨.error e, d⟩
      | .ok f =>
          let d := d.putFile f.name f.content
          match ← mapPages host partition f first size access (partition.pageCount size) 0 #[] with
          | .error e => return ⟨.error e, d⟩
          | .ok pages => return ⟨.ok ⟨partition, pages, size⟩, d⟩

/-- Maps `size` words of an existing file from word `first` on. -/
def mapRange (host : Host) (d : Directory) (partition : Partition) (path : String) (first size : Nat)
    (access : Access) : Except Fault (FileOutcome (Paged k)) :=
  match d.openFor host path access with
  | .error cause => .ok ⟨.error (.io path cause), d⟩
  | .ok f => mapOpen host d partition f first size access

/-- Maps a whole file, which must consist of whole words. -/
def mapWhole (host : Host) (d : Directory) (partition : Partition) (path : String) (access : Access) :
    Except Fault (FileOutcome (Paged k)) :=
  match d.openFor host path access with
  | .error cause => .ok ⟨.error (.io path cause), d⟩
  | .ok f =>
      match host.step f.name .measuring with
      | .error cause => .ok ⟨.error (.io path cause), d⟩
      | .ok () =>
          let available := f.content.bytes.size
          match checkArgument (available % k.bytes == 0) "path" "file size is a multiple of the word size" with
          | .error e => .ok ⟨.error e, d⟩
          | .ok () => mapOpen host d partition f 0 (available / k.bytes) access

/-- Maps the first `size` words of a file for writing; the file is created if there is none. -/
def mapSized (host : Host) (d : Directory) (partition : Partition) (path : String) (size : Nat) :
    Except Fault (FileOutcome (Paged k)) :=
  match d.openOrCreate host path with
  | .error cause => .ok ⟨.error (.io path cause), d⟩
  | .ok (f, d) => mapOpen host d partition f 0 size .readWrite

end Paged

namespace Store
variable {k : Width}

/-- The part of a file that a mapped store shows; the pages of an array show it one after the other. -/
def region? : Store k → Option Region
  | slice _ => none
  | page p => p.region
  | paged a => a.pages[0]?.bind (fun p => p.region)
  | window base _ _ => base.region?
  | elementwise base => base.region?

def sharesFile (s t : Store k) : Bool :=
  match s.region?, t.region? with
  | some r, some r' => r.file == r'.file
  | _, _ => false

def writeThrough (s : Store k) (d : Directory) : Directory :=
  match s.region? with
  | some r => r.write (Bytes.ofWords s.contents) d
  | none => d

def refillPages : List (Page k) → List (Word k) → List (Page k)
  | [], _ => []
  | p :: rest, ws => { p with words := (ws.take p.size).toArray } :: refillPages rest (ws.drop p.size)

def refill (ws : List (Word k)) : Store k → Store k
  | slice _ => slice ws.toArray
  | page p => page { p with words := ws.toArray }
  | paged a => paged { a with pages := (refillPages a.pages.toList ws).toArray }
  | window base low high => window (base.refill ws) low high
  | elementwise base => elementwise (base.refill ws)

def reload (d : Directory) (s : Store k) : Store k :=
  match s.region? with
  | some r =>
      match d.file? r.file with
      | some f => s.refill (f.shownWords r.offset s.root.size)
      | none => s
  | none => s

end Store
end PagedWords
