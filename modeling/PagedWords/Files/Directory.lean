import PagedWords.Files.File
import PagedWords.Host
import PagedWords.Named

/-!
# A directory of files, and the paths that lead to them

There are no folders in the directory: a path with more than one name in it stops at a plain file, or
at a folder that is missing. One file has many paths, so it is known by its name alone.
-/
namespace PagedWords

structure Directory where
  files : Named File
deriving DecidableEq, Repr

/-- A file that was opened: the path that it was asked for by, its name, and what it holds. -/
structure OpenFile where
  path : String
  name : String
  content : File
deriving DecidableEq, Repr

/-- Whether a path should lead to a file that is there, or may lead to one that is made. -/
inductive Purpose | find | make deriving DecidableEq, Repr

namespace Directory

def empty : Directory := ⟨[]⟩

instance : Inhabited Directory := ⟨empty⟩

def file? (d : Directory) (name : String) : Option File := d.files.find? name

def find? (d : Directory) (name : String) : Option Bytes := (d.file? name).map File.bytes

def putFile (d : Directory) (name : String) (f : File) : Directory := ⟨Named.put name f d.files⟩

def put (d : Directory) (name : String) (bytes : Bytes) : Directory := d.putFile name (.ofBytes bytes)

/-- The bytes in the longest name. -/
def nameLimit : Nat := 255

/-- The name at the end of a path, given by its parts. An empty part and a dot stay where they are; a slash
at the end asks for a folder, and none is made. -/
def nameAt (d : Directory) (purpose : Purpose) : List String → Except IoCause String
  | [] => .error .isADirectory
  | part :: rest =>
      if part = "" ∨ part = "." then d.nameAt purpose rest
      else if (part = ".." ∨ purpose = .make ∧ rest ≠ []) ∧ rest.all String.isEmpty then .error .isADirectory
      else if nameLimit < part.utf8ByteSize then .error .nameTooLong
      else if rest = [] then .ok part
      else .error (if (d.file? part).isSome then .notADirectory else .notFound)

/-- The name to which a path leads. Nothing is known of what lies outside the directory. -/
def resolve (d : Directory) (purpose : Purpose) (path : String) : Except IoCause String :=
  if path.contains '\x00' then .error .nulInName
  else if path.startsWith "/" then .error .notFound
  else d.nameAt purpose (path.splitOn "/")

def create (d : Directory) (path : String) (bytes : Bytes) : Except IoCause Directory :=
  (d.resolve .make path).map (fun name => d.put name bytes)

def open? (d : Directory) (path : String) : Except IoCause OpenFile := do
  let name ← d.resolve .find path
  match d.file? name with
  | some f => return ⟨path, name, f⟩
  | none => throw .notFound

def openFor (host : Host) (d : Directory) (path : String) (access : Access) : Except IoCause OpenFile := do
  let f ← d.open? path
  host.step f.name (.opening access)
  return f

/-- Opens a file for writing, which is created empty if there is none. -/
def openOrCreate (host : Host) (d : Directory) (path : String) : Except IoCause (OpenFile × Directory) := do
  let name ← d.resolve .make path
  match d.file? name with
  | some f =>
      host.step name (.opening .readWrite)
      return (⟨path, name, f⟩, d)
  | none =>
      host.step name .creating
      return (⟨path, name, .ofBytes #[]⟩, d.put name #[])

@[simp] theorem file?_putFile (d : Directory) (name : String) (f : File) :
    (d.putFile name f).file? name = some f := Named.find?_put_self name f d.files

theorem file?_putFile_of_ne {name other : String} (d : Directory) (f : File) (h : other ≠ name) :
    (d.putFile name f).file? other = d.file? other := Named.find?_put_of_ne f d.files h

@[simp] theorem find?_put (d : Directory) (name : String) (bytes : Bytes) :
    (d.put name bytes).find? name = some bytes := by simp [find?, put]

theorem nameAt_eq_of_ok {d e : Directory} {purpose purpose' : Purpose} {parts : List String} {name : String}
    (h : d.nameAt purpose parts = .ok name) : e.nameAt purpose' parts = .ok name := by
  induction parts with
  | nil => simp [nameAt] at h
  | cons part rest ih =>
    unfold nameAt at h ⊢
    split at h
    · next hp => rw [if_pos hp]; exact ih h
    · next hp =>
      split at h
      · cases h
      · next hf =>
        split at h
        · cases h
        · next hl =>
          split at h
          · next hr =>
            subst hr
            have hparent : part ≠ ".." := fun hparent => hf ⟨.inl hparent, rfl⟩
            simp only [hp, hparent, hl, h, ne_eq, not_true_eq_false, and_false, or_self, false_and, if_false, if_true]
          · cases h

/-- Where a path leads does not depend on the files or on the purpose, once it leads somewhere. -/
theorem resolve_eq_of_ok {d e : Directory} {purpose purpose' : Purpose} {path name : String}
    (h : d.resolve purpose path = .ok name) : e.resolve purpose' path = .ok name := by
  simp only [resolve] at h ⊢
  split at h
  · cases h
  · next hn =>
    split at h
    · cases h
    · next hs =>
      simp only [hn, hs]
      exact nameAt_eq_of_ok h

theorem open?_put {d : Directory} {purpose : Purpose} {path name : String} (h : d.resolve purpose path = .ok name)
    (bytes : Bytes) : (d.put name bytes).open? path = .ok ⟨path, name, .ofBytes bytes⟩ := by
  have ho : (d.put name bytes).resolve .find path = .ok name := resolve_eq_of_ok h
  have hf : (d.put name bytes).file? name = some (.ofBytes bytes) := file?_putFile d name _
  simp only [open?, ho, hf, bind, Except.bind, pure, Except.pure]

theorem openFor_eq_ok {host : Host} {d : Directory} {path : String} {f : OpenFile} {access : Access}
    (hopen : d.open? path = .ok f) (hgranted : host.step f.name (.opening access) = .ok ()) :
    d.openFor host path access = .ok f := by
  simp only [openFor, hopen, hgranted, bind, Except.bind, pure, Except.pure]

theorem open?_eq_ok {d : Directory} {path : String} {f : OpenFile} (h : d.open? path = .ok f) :
    d.resolve .find path = .ok f.name ∧ d.file? f.name = some f.content ∧ f.path = path := by
  rcases hname : d.resolve .find path with e | name
  · simp [open?, hname, bind, Except.bind] at h
  rcases hfile : d.file? name with _ | content
  · simp [open?, hname, hfile, bind, Except.bind, throw, throwThe, MonadExceptOf.throw] at h
  simp only [open?, hname, hfile, bind, Except.bind, pure, Except.pure, Except.ok.injEq] at h
  subst h
  exact ⟨rfl, hfile, rfl⟩

end Directory
end PagedWords
