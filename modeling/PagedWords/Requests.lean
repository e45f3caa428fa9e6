import PagedWords.Store.Search
import PagedWords.Store.Sorting

/-!
# Requests: the operations of a store, with their arguments

An edit changes words, a query changes none. Callbacks work on a state of the caller, filters on the caller's list of
candidates, and sorts in its folder.
-/
namespace PagedWords
variable {k : Width} {τ : Type}

inductive Edit (k : Width) (τ : Type)
  | set (pos : Nat) (w : Word k)
  | trySet (pos : Nat) (w : Word k)
  | swap (i j : Nat)
  | swapRecords (n i j : Nat)
  | increment (pos : Nat)
  | fetchIncrement (pos : Nat)
  | writeRange (start : Nat) (ws : Words k)
  | fill (start stop : Nat) (w : Word k)
  | transform (start stop : Nat) (f : τ → Nat → Word k → Word k × τ)
  | tryTransform (start stop : Nat) (f : τ → Nat → Word k → Except Error (Word k) × τ)

inductive Answer (k : Width)
  | done
  | word (w : Word k)
  | outcome (r : Except Error Unit)

namespace Edit

def run : Edit k τ → Store k → τ → Except Fault (Answer k × Store k × τ)
  | set pos w, s, t => do return (.done, ← s.set pos w, t)
  | trySet pos w, s, t => do
      let (r, s) ← s.trySet pos w
      return (.outcome r, s, t)
  | swap i j, s, t => do return (.done, ← s.swap i j, t)
  | swapRecords n i j, s, t => do return (.done, ← s.swapRecords n i j, t)
  | increment pos, s, t => do return (.done, (← s.increment pos).2, t)
  | fetchIncrement pos, s, t => do
      let (w, s) ← s.increment pos
      return (.word w, s, t)
  | writeRange start ws, s, t => do return (.done, ← s.writeRange start ws, t)
  | fill start stop w, s, t => do return (.done, ← s.fill start stop w, t)
  | transform start stop f, s, t => do
      let (s, t) ← s.transform start stop f t
      return (.done, s, t)
  | tryTransform start stop f, s, t => do
      let (r, s, t) ← s.tryTransform start stop f t
      return (.outcome r, s, t)

def runAll : List (Edit k τ) → Store k → τ → Except Fault (List (Answer k) × Store k × τ)
  | [], s, t => .ok ([], s, t)
  | e :: es, s, t => do
      let (x, s, t) ← e.run s t
      let (xs, s, t) ← runAll es s t
      return (x :: xs, s, t)

end Edit

structure Caller (k : Width) (τ : Type) where
  state : τ
  candidates : Candidates k
  folder : Folder

inductive Query (k : Width) (τ : Type)
  | size
  | get (pos : Nat)
  | tryGet (pos : Nat)
  | readRange (start n : Nat)
  | fold (start stop : Nat) (f : τ → Nat → Word k → τ)
  | tryFold (start stop : Nat) (f : τ → Nat → Word k → Except Error Unit × τ)
  | search (how : Strategy) (key : Word k) (start stop : Nat)
  | searchRecords (how : Strategy) (stride : Nat) (key : Word k) (start stop : Nat)
  | bound (how : Strategy) (key : Word k) (start stop : Nat)
  | boundRecords (stride : Nat) (key : Word k) (start stop : Nat)
  | filter (how : Membership) (boundary : Word k) (start stop : Nat)
  | filterRecords (how : Membership) (stride : Nat) (boundary : Word k) (start stop : Nat)
  | isSorted (start stop : Nat)
  | isSortedRecords (stride start stop : Nat)

inductive Request (k : Width) (τ : Type)
  | query (q : Query k τ)
  | edit (e : Edit k τ)
  | sort (algorithm : SortAlgorithm) (start stop : Nat)
  | sortRecords (how : RecordSort) (stride start stop : Nat)

inductive Reply (k : Width)
  | done
  | word (w : Word k)
  | words (ws : Words k)
  | number (n : Nat)
  | finding (r : Finding)
  | flag (b : Bool)
  | refused (e : Error)

namespace Reply

def ofExcept {α : Type} (f : α → Reply k) : Except Error α → Reply k
  | .error e => refused e
  | .ok x => f x

def ofAnswer : Answer k → Reply k
  | .done => done
  | .word w => word w
  | .outcome r => .ofExcept (fun _ => done) r

end Reply

def Query.run : Query k τ → Store k → Caller k τ → Except Fault (Reply k × Caller k τ)
  | size, s, u => .ok (.number s.size, u)
  | get pos, s, u => do return (.word (← s.get pos), u)
  | tryGet pos, s, u => do return (.ofExcept .word (← s.tryGet pos), u)
  | readRange start n, s, u => do return (.words (← s.readRange start n), u)
  | fold start stop f, s, u => do return (.done, { u with state := ← s.fold start stop f u.state })
  | tryFold start stop f, s, u => do
      let (r, t) ← s.tryFold start stop f u.state
      return (.ofExcept (fun _ => .done) r, { u with state := t })
  | search how key start stop, s, u => do return (.finding (← s.search how key start stop), u)
  | searchRecords how stride key start stop, s, u => do
      return (.ofExcept .finding (← s.searchRecords how stride key start stop), u)
  | bound how key start stop, s, u => do return (.number (← s.bound how key start stop), u)
  | boundRecords stride key start stop, s, u => do
      return (.ofExcept .number (← s.boundRecords stride key start stop), u)
  | filter how boundary start stop, s, u => do
      return (.done, { u with candidates := ← s.filter how boundary start stop u.candidates })
  | filterRecords how stride boundary start stop, s, u => do
      match ← s.filterRecords how stride boundary start stop u.candidates with
      | .error e => return (.refused e, u)
      | .ok c => return (.done, { u with candidates := c })
  | isSorted start stop, s, u => do return (.flag (← s.isSorted start stop), u)
  | isSortedRecords stride start stop, s, u => do
      return (.ofExcept .flag (← s.isSortedRecords stride start stop), u)

def Request.run : Request k τ → Store k → Caller k τ → Except Fault (Reply k × Store k × Caller k τ)
  | query q, s, u => do
      let (x, u) ← q.run s u
      return (x, s, u)
  | edit e, s, u => do
      let (x, s, t) ← e.run s u.state
      return (.ofAnswer x, s, { u with state := t })
  | sort algorithm start stop, s, u => do return (.done, ← s.sort algorithm start stop, u)
  | sortRecords how stride start stop, s, u => do
      let o ← s.sortRecords how u.folder stride start stop
      return (.ofExcept (fun _ => .done) o.result, o.storage, { u with folder := o.folder })

inductive RecordTask (k : Width)
  | search (how : Strategy) (key : Word k)
  | bound (key : Word k)
  | filter (how : Membership) (boundary : Word k)
  | isSorted
  | sort (how : RecordSort)

/-- The request for the records of `stride` words in `start..stop`. -/
def RecordTask.on (stride start stop : Nat) : RecordTask k → Request k τ
  | search how key => .query (.searchRecords how stride key start stop)
  | bound key => .query (.boundRecords stride key start stop)
  | filter how boundary => .query (.filterRecords how stride boundary start stop)
  | isSorted => .query (.isSortedRecords stride start stop)
  | sort how => .sortRecords how stride start stop

end PagedWords
