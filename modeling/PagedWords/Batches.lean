import PagedWords.Store.Search
import PagedWords.Store.Union

/-!
# Work in several steps

Candidates are filtered against a long range chunk by chunk, or against several ranges one after the other. Segments
of records are merged two at a time, in any bracketing.
-/
namespace PagedWords
variable {k : Width}

/-- Filters chunk after chunk. The boundary of a chunk is told by its last key, that of the last chunk is given. -/
def Store.filterChunks (s : Store k) (how : Membership) (stride : Nat) (bound : Word k → Word k) (boundary : Word k)
    (stop : Nat) : Nat → List Nat → Candidates k → Except Fault (Except Error (Candidates k))
  | start, [], c => s.filterRecords how stride boundary start stop c
  | start, cut :: cuts, c => do
      let last ← s.get (cut - stride)
      match ← s.filterRecords how stride (bound last) start cut c with
      | .error e => return .error e
      | .ok c => s.filterChunks how stride bound boundary stop cut cuts c

/-- A filter of a candidate list against words or, of a stride, against records. -/
structure Pass (k : Width) where
  store : Store k
  how : Membership
  stride : Option Nat
  boundary : Word k
  start : Nat
  stop : Nat

namespace Pass

def filter (p : Pass k) (c : Candidates k) : Except Fault (Except Error (Candidates k)) :=
  match p.stride with
  | none => .ok <$> p.store.filter p.how p.boundary p.start p.stop c
  | some stride => p.store.filterRecords p.how stride p.boundary p.start p.stop c

/-- Filters the candidates and makes those that are left the candidates of the next pass. -/
def run (p : Pass k) (c : Candidates k) : Except Fault (Except Error (Candidates k)) := do
  match ← p.filter c with
  | .error e => return .error e
  | .ok c => .ok <$> c.finalize

def runAll : List (Pass k) → Candidates k → Except Fault (Except Error (Candidates k))
  | [], c => .ok (.ok c)
  | p :: ps, c => do
      match ← p.run c with
      | .error e => return .error e
      | .ok c => runAll ps c

end Pass

def Operand.whole (ws : Words k) : Operand k := ⟨.slice ws, 0, ws.size⟩

/-- Merges two segments into a new array, for which the keys are counted first. -/
def mergeSegments (stride : Nat) (x y : Words k) : Except Fault (Except Error (Words k)) := do
  match ← (Operand.whole x).countKeys (Operand.whole y) stride with
  | .error e => return .error e
  | .ok n =>
      let room := max (n * stride) (max x.size y.size)
      let zeros : Store k := .slice (Array.replicate room Word.zero)
      let (r, out) ← zeros.mergeInto 0 room (Operand.whole x) (Operand.whole y) stride
      return r.map fun written => (out.contents.take written).toArray

/-- An order in which to merge a row of segments. -/
inductive Bracketing (k : Width)
  | segment (ws : Words k)
  | merge (left right : Bracketing k)

namespace Bracketing

def segments : Bracketing k → List (Words k)
  | segment ws => [ws]
  | merge left right => left.segments ++ right.segments

def run (stride : Nat) : Bracketing k → Except Fault (Except Error (Words k))
  | segment ws => .ok (.ok ws)
  | merge left right => do
      match ← left.run stride, ← right.run stride with
      | .ok x, .ok y => mergeSegments stride x y
      | .error e, _ => return .error e
      | _, .error e => return .error e

end Bracketing
end PagedWords
