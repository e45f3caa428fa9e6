import PagedWords.Files.Mapping
import PagedWords.Store.Union

/-!
# Unions among arrays that map one file

A word written to a mapped page is the same word of every other page that maps its place in the file.
A union whose outcome lies in a file of its operands therefore reads what it has written.
-/
namespace PagedWords

namespace Page
variable {k : Width}

/-- The page after the word of a file was written elsewhere. -/
def see (place : FilePlace) (w : Word k) (p : Page k) : Page k :=
  match p with
  | ⟨ws, some r⟩ =>
      if r.file = place.file ∧ r.offset ≤ place.offset then
        ⟨ws.setIfInBounds ((place.offset - r.offset) / k.bytes) w, some r⟩
      else ⟨ws, some r⟩
  | p => p

end Page

namespace Store
variable {k : Width}

def place? : Store k → Nat → Option FilePlace
  | slice _, _ => none
  | page p, pos => p.place? pos
  | paged a, pos => (a.pages[a.partition.page pos]?).bind (fun p => p.place? (a.partition.offset pos))
  | window base low _, pos => base.place? (low + pos)
  | elementwise base, pos => base.place? pos

def see (place : FilePlace) (w : Word k) : Store k → Store k
  | slice ws => slice ws
  | page p => page (p.see place w)
  | paged a => paged { a with pages := a.pages.map (fun p => p.see place w) }
  | window base low high => window (base.see place w) low high
  | elementwise base => elementwise (base.see place w)

end Store

/-- A destination and two sources that show what is written to it. -/
structure Joint (k : Width) where
  out : Store k
  first : Store k
  second : Store k

namespace Joint
variable {k : Width}

def read (j : Joint k) (side : Side) (pos : Nat) : Except Fault (Word k) :=
  Union.readSide j.first j.second side pos

def write (j : Joint k) (pos : Nat) (w : Word k) : Except Fault (Joint k) := do
  let out ← j.out.set pos w
  match out.place? pos with
  | some place => return ⟨out, j.first.see place w, j.second.see place w⟩
  | none => return { j with out }

end Joint

namespace Store
variable {k : Width} {τ : Type}

/-- The merge of `mergeInto`, also for a destination that shares a file with the operands. -/
def mergeSharing (out : Store k) (start stop : Nat) (a b : Operand k) (stride : Nat) :
    Except Fault (Except Error Nat × Store k) := do
  if out.sharesFile a.store || out.sharesFile b.store then
    match ← out.checkMerge start stop a b stride with
    | .error e => return (.error e, out)
    | .ok () =>
        let (r, j) ← Union.mergeOver Joint.read Joint.write ⟨out, a.store, b.store⟩ stride start stop
          a.start a.stop b.start b.stop
        return (r, j.out)
  else out.mergeInto start stop a b stride

/-- The merge of `mergeValues`, also for a destination that shares a file with the source. -/
def mergeValuesSharing (dest : Store k) (start stop : Nat) (source : Operand k)
    (f : τ → Word k → Word k → Word k × τ) (t : τ) : Except Fault (Except Error Nat × Store k × τ) := do
  if dest.sharesFile source.store then
    match ← Operand.checkInputs ⟨dest, start, stop⟩ source 2 with
    | .error e => return (.error e, dest, t)
    | .ok () =>
        let (n, j, t) ← Union.combineOver (fun j pos => j.out.get pos) (fun j pos => j.read .second pos)
          Joint.write ⟨dest, source.store, source.store⟩ f t start stop source.start source.stop
        return (.ok n, j.out, t)
  else dest.mergeValues start stop source f t

end Store
end PagedWords
