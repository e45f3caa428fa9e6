import PagedWords.Store.Bulk
import PagedWords.Store.Sorting
import PagedWords.Union

/-!
# Unions and value merges of stores

When all ranges lie in one piece the work runs on their words; otherwise it goes through the stores,
word by word.
-/
namespace PagedWords

/-- A range of a store that takes part in a union. -/
structure Operand (k : Width) where
  store : Store k
  start : Nat
  stop : Nat

namespace Operand
variable {k : Width}

def length (o : Operand k) : Nat := o.stop - o.start

def checkRecords (o : Operand k) (stride : Nat) : Except Error Unit :=
  PagedWords.checkRecords o.start o.stop o.store.size stride

/-- Whether the range consists of whole records that ascend by key. -/
def checkOrder (o : Operand k) (stride : Nat) : Except Fault (Except Error Unit) := do
  match ← o.store.isSortedRecords stride o.start o.stop with
  | .error e => return .error e
  | .ok true => return .ok ()
  | .ok false => return .error (.notSorted o.start o.stop)

def slice? (o : Operand k) : Except Fault (Option (Words k)) := o.store.slice? o.start o.stop

/-- Both ranges are checked for records first and for their order then. -/
def checkInputs (a b : Operand k) (stride : Nat) : Except Fault (Except Error Unit) := do
  match a.checkRecords stride, b.checkRecords stride with
  | .error e, _ => return .error e
  | _, .error e => return .error e
  | .ok (), .ok () =>
      match ← a.checkOrder stride with
      | .error e => return .error e
      | .ok () => b.checkOrder stride

end Operand

namespace Store
variable {k : Width} {τ : Type}

/-- Whether the operands can be united in `start..stop` of `out`: a range that is shorter than the longer
operand is too short. -/
def checkMerge (out : Store k) (start stop : Nat) (a b : Operand k) (stride : Nat) :
    Except Fault (Except Error Unit) := do
  if let .error e := checkRange start stop out.size then return .error e
  if let .error e ← a.checkInputs b stride then return .error e
  let required := max a.length b.length
  if stop - start < required then return .error (.destinationTooSmall required (stop - start))
  return .ok ()

/-- Writes the union of the operands to `start..stop` of `out`; answers the number of words written. -/
def mergeInto (out : Store k) (start stop : Nat) (a b : Operand k) (stride : Nat) :
    Except Fault (Except Error Nat × Store k) := do
  if let .error e ← out.checkMerge start stop a b stride then return (.error e, out)
  match ← out.writableSlice? start stop, ← a.slice?, ← b.slice? with
  | some o, some x, some y => do
      let (r, o) ← Union.merge o x y stride 0 o.size 0 x.size 0 y.size
      return (r, ← out.writeRange start o)
  | _, _, _ => Union.merge out a.store b.store stride start stop a.start a.stop b.start b.stop

/-- Combines the values of the (key, value) pairs of `dest` whose key `source` has too; answers the
number of pairs combined. -/
def mergeValues (dest : Store k) (start stop : Nat) (source : Operand k)
    (f : τ → Word k → Word k → Word k × τ) (t : τ) : Except Fault (Except Error Nat × Store k × τ) := do
  let target : Operand k := ⟨dest, start, stop⟩
  if let .error e ← target.checkInputs source 2 then return (.error e, dest, t)
  match ← dest.writableSlice? start stop, ← source.slice? with
  | some d, some s => do
      let (n, d, t) ← Union.combine d s f t 0 d.size 0 s.size
      return (.ok n, ← dest.writeRange start d, t)
  | _, _ => do
      let (n, dest, t) ← Union.combine dest source.store f t start stop source.start source.stop
      return (.ok n, dest, t)

end Store

/-- The number of different keys in two ranges. -/
def Operand.countKeys {k : Width} (a b : Operand k) (stride : Nat) : Except Fault (Except Error Nat) := do
  match ← a.checkInputs b stride with
  | .error e => return .error e
  | .ok () =>
      match ← a.slice?, ← b.slice? with
      | some x, some y => .ok <$> Union.count x y stride 0 x.size 0 y.size
      | _, _ => .ok <$> Union.count a.store b.store stride a.start a.stop b.start b.stop

end PagedWords
