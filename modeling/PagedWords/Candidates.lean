import PagedWords.Fault
import PagedWords.Word

/-!
# Candidate lists that are filtered in place

The words before `write` are kept, those of `read..stop` are not yet visited. A kept word is copied
down, so the words between `write` and `read` are left over from earlier.
-/
namespace PagedWords

structure Candidates (k : Width) where
  data : Words k
  read : Nat
  write : Nat
  stop : Nat
deriving DecidableEq

namespace Candidates
variable {k : Width}

def ofWords (ws : Words k) : Candidates k := ⟨ws, 0, 0, ws.size⟩

def hasUnvisited (c : Candidates k) : Bool := c.read < c.stop

def current (c : Candidates k) : Except Fault (Word k) :=
  if c.hasUnvisited then
    match c.data[c.read]? with
    | some w => .ok w
    | none => .error .badIndex
  else .error .broken

def keep (c : Candidates k) : Except Fault (Candidates k) :=
  match c.data[c.read]? with
  | none => .error .badIndex
  | some w =>
      if h : c.write < c.data.size then
        .ok { c with data := c.data.set c.write w h, read := c.read + 1, write := c.write + 1 }
      else .error .badIndex

def drop (c : Candidates k) : Candidates k := { c with read := c.read + 1 }

def keepMany : Nat → Candidates k → Except Fault (Candidates k)
  | 0, c => .ok c
  | n + 1, c => do keepMany n (← c.keep)

def keepRest (c : Candidates k) : Except Fault (Candidates k) := keepMany (c.stop - c.read) c

def dropRest (c : Candidates k) : Candidates k := { c with read := c.stop }

/-- Moves the words `read..stop` down to `write`. -/
def closeGap (c : Candidates k) : Words k :=
  c.data.extract 0 c.write ++ c.data.extract c.read c.stop ++
    c.data.extract (c.write + (c.stop - c.read)) c.data.size

/-- Leaves the kept candidates followed by the unvisited ones, and starts over. -/
def finalize (c : Candidates k) : Except Fault (Candidates k) :=
  if c.stop < c.read then .error .overflow
  else if c.data.size < c.stop ∨ c.data.size < c.write + (c.stop - c.read) then .error .badIndex
  else .ok ⟨c.closeGap, 0, 0, c.write + (c.stop - c.read)⟩

def live (c : Candidates k) : Words k := c.data.extract 0 c.stop

def size (c : Candidates k) : Nat := c.stop

def isEmpty (c : Candidates k) : Bool := c.stop == 0

inductive Action (k : Width)
  | keep | drop | keepRest | dropRest | finalize
  | reset (ws : Words k)

namespace Action

def run : Action k → Candidates k → Except Fault (Candidates k)
  | keep, c => c.keep
  | drop, c => .ok c.drop
  | keepRest, c => c.keepRest
  | dropRest, c => .ok c.dropRest
  | finalize, c => c.finalize
  | reset ws, _ => .ok (.ofWords ws)

def runAll : List (Action k) → Candidates k → Except Fault (Candidates k)
  | [], c => .ok c
  | a :: acts, c => do runAll acts (← a.run c)

end Action

end Candidates
end PagedWords
