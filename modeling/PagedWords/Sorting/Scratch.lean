import PagedWords.Fault
import PagedWords.Word

/-!
# Folders, and scratch files that live in one for the time of a sort

What becomes of a scratch file is for the system to say: whether it can be made, given its size and mapped, which name
it gets among those that are free, and whether it can be removed again.
-/
namespace PagedWords

/-- How far the making of a scratch file gets. -/
inductive Attempt
  | unmade (cause : IoCause)
  | unsized (cause : IoCause)
  | unmapped (cause : IoCause)
  | made
deriving DecidableEq, Repr

/-- The name of a scratch file tells the range that it serves. -/
def scratchName (start stop : Nat) (tag : String) : String := s!"sort-{start}-{stop}-{tag}.dat"

/-- A path that may be a folder, known by the names of the files there, and what the system does with it. -/
structure Folder where
  path : String
  isFolder : Bool
  names : List String
  attempt (bytes : Nat) : Attempt
  tag (names : List String) (start stop : Nat) : String
  fresh : ∀ names start stop, scratchName start stop (tag names start stop) ∉ names
  located (name : String) : String
  unlinks : Bool

namespace Folder

def freshName (f : Folder) (start stop : Nat) : String := scratchName start stop (f.tag f.names start stop)

def add (f : Folder) (name : String) : Folder := { f with names := name :: f.names }

def remove (f : Folder) (name : String) : Folder :=
  if f.unlinks then { f with names := f.names.filter (· ≠ name) } else f

/-- A scratch file of up to `n` bytes is made, and it is removed when it is asked to be. -/
structure Serves (f : Folder) (n : Nat) : Prop where
  made : ∀ bytes ≤ n, f.attempt bytes = .made
  unlinks : f.unlinks = true

/-- No scratch file can be made there, whatever its size. -/
def Barred (f : Folder) : Prop := ∀ bytes, ∃ cause, f.attempt bytes = .unmade cause

def totalLength (names : List String) : Nat := names.foldr (fun name n => name.length + n) 0

private theorem length_le_totalLength {names : List String} {name : String} (h : name ∈ names) :
    name.length ≤ totalLength names := by
  induction h with
  | head rest => exact Nat.le_add_right _ _
  | tail other _ ih => exact Nat.le_trans ih (Nat.le_add_left _ _)

/-- A folder that serves scratch files of any size; their names are longer than those that are there. -/
def serving (path : String) (names : List String) : Folder where
  path := path
  isFolder := true
  names := names
  attempt _ := .made
  tag names _ _ := String.ofList (List.replicate (totalLength names) '0')
  fresh names start stop h := by
    have hle := length_le_totalLength h
    have hend : ".dat".length = 4 := rfl
    simp [scratchName, toString] at hle
    omega
  located name := s!"{path}/{name}"
  unlinks := true

/-- A path at which there is no folder. -/
def barring (path : String) (cause : IoCause) : Folder :=
  { serving path [] with isFolder := false, attempt := fun _ => .unmade cause }

theorem remove_add {f : Folder} {name : String} (h : f.unlinks = true) (hname : name ∉ f.names) :
    (f.add name).remove name = f := by
  have hkept : f.names.filter (· ≠ name) = f.names := by
    rw [List.filter_eq_self]
    intro other hother
    exact decide_eq_true (fun heq => hname (heq ▸ hother))
  have hnew : (name :: f.names).filter (· ≠ name) = f.names := by
    rw [List.filter_cons_of_neg (by simp), hkept]
  rw [remove, if_pos (show (f.add name).unlinks = true from h)]
  simp only [add, hnew]

theorem freshName_notMem (f : Folder) (start stop : Nat) : f.freshName start stop ∉ f.names :=
  f.fresh f.names start stop

theorem Serves.mono {f : Folder} {m n : Nat} (h : f.Serves n) (hle : m ≤ n) : f.Serves m :=
  ⟨fun bytes hbytes => h.made bytes (Nat.le_trans hbytes hle), h.unlinks⟩

theorem barring_barred (path : String) (cause : IoCause) : (barring path cause).Barred := fun _ => ⟨cause, rfl⟩

theorem serving_serves (path : String) (names : List String) (n : Nat) : (serving path names).Serves n :=
  ⟨fun _ _ => rfl, rfl⟩

end Folder

/-- A file of words in a folder. -/
structure Scratch (k : Width) where
  name : String
  words : Words k
deriving DecidableEq

namespace Scratch
variable {k : Width}

/-- Creates a file of zeros for `start..stop`, which is empty for a reversed range. A file that was made but is of no
use is removed again; an empty one needs no mapping. -/
def create (f : Folder) (start stop : Nat) : Except Error (Scratch k) × Folder :=
  let n := stop - start
  if positionLimit ≤ n * k.bytes then (.error (.invalidArgument "range" "scratch size overflows usize"), f)
  else
    let name := f.freshName start stop
    let refused (cause : IoCause) : Except Error (Scratch k) × Folder :=
      (.error (.io (f.located name) cause), (f.add name).remove name)
    match f.attempt (n * k.bytes) with
    | .unmade cause => (.error (.io f.path cause), f)
    | .unsized cause => refused cause
    | .unmapped cause =>
        if n = 0 then (.ok ⟨name, Array.replicate n Word.zero⟩, f.add name) else refused cause
    | .made => (.ok ⟨name, Array.replicate n Word.zero⟩, f.add name)

def size (s : Scratch k) : Nat := s.words.size

def isEmpty (s : Scratch k) : Bool := s.words.isEmpty

def byteSize (s : Scratch k) : Nat := s.words.size * k.bytes

def release (s : Scratch k) (f : Folder) : Folder := f.remove s.name

end Scratch
end PagedWords
