import PagedWords.Files.Sharing
import PagedWords.Files.Transfer
import PagedWords.Requests

/-!
# Workspaces: named arrays and candidate lists beside a directory of files

A write to a mapped array is seen in its file at once, and by every other array that maps the file.
-/
namespace PagedWords

structure Workspace (k : Width) where
  arrays : Named (Store k)
  candidates : Named (Candidates k)
  directory : Directory
  scratch : Folder

namespace Workspace
variable {k : Width} {τ : Type}

def empty (scratch : Folder) : Workspace k := ⟨[], [], .empty, scratch⟩

/-- Replaces the files; mapped arrays show their new contents. -/
def withDirectory (w : Workspace k) (d : Directory) : Workspace k :=
  { w with directory := d, arrays := w.arrays.mapValues (fun s => s.reload d) }

/-- Names an array; of a window, the store in which it lies. The other arrays see what it writes. -/
def putArray (w : Workspace k) (name : String) (s : Store k) : Workspace k :=
  let root := s.root
  let d := root.writeThrough w.directory
  let others := (Named.erase name w.arrays).mapValues (fun t => if root.sharesFile t then t.reload d else t)
  { w with directory := d, arrays := Named.put name root others }

def dropArray (w : Workspace k) (name : String) : Workspace k :=
  { w with arrays := Named.erase name w.arrays }

def putCandidates (w : Workspace k) (name : String) (c : Candidates k) : Workspace k :=
  { w with candidates := Named.put name c w.candidates }

/-- Writes a file, if the path leads to one. -/
def putFile (w : Workspace k) (path : String) (bytes : Bytes) : Workspace k :=
  match w.directory.create path bytes with
  | .ok d => w.withDirectory d
  | .error _ => w

/-- Asks an array one request after the other; after each its file, and whoever shows that file, sees what was
written. -/
def runAll (w : Workspace k) (name : String) :
    List (Request k τ) → Store k → Caller k τ → Except Fault (List (Reply k) × Store k × Workspace k × Caller k τ)
  | [], s, u => .ok ([], s, w, u)
  | r :: rs, s, u => do
      let (x, s, u) ← r.run s u
      let (xs, s, w, u) ← (w.putArray name s).runAll name rs s u
      return (x :: xs, s, w, u)

end Workspace
end PagedWords
