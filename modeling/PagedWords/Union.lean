import PagedWords.Cells

/-!
# The union of two ranges of records in key order

Both ranges ascend by key. Of the records with one key only the first is taken, and the first range
goes before the second.
-/
namespace PagedWords

inductive Side | first | second deriving DecidableEq, Repr

namespace Union
variable {σ ρ υ τ : Type} {k : Width}

@[inline] def readSide [Cells σ k] [Cells ρ k] (a : σ) (b : ρ) : Side → Nat → Except Fault (Word k)
  | .first, pos => Cells.get a pos
  | .second, pos => Cells.get b pos

/-- A record of the union: where it is, its key, and where both ranges go on. -/
structure Step (k : Width) where
  side : Side
  pos : Nat
  key : Word k
  nextA : Nat
  nextB : Nat

/-- The record with the smallest key at the head of either range; equal heads are passed at once. -/
@[specialize] def next? (read : Side → Nat → Except Fault (Word k)) (stride stopA stopB posA posB : Nat) :
    Except Fault (Option (Step k)) := do
  if posA < stopA then
    let x ← read .first posA
    if posB < stopB then
      let y ← read .second posB
      if x < y then return some ⟨.first, posA, x, posA + stride, posB⟩
      else if y < x then return some ⟨.second, posB, y, posA, posB + stride⟩
      else return some ⟨.first, posA, x, posA + stride, posB + stride⟩
    else return some ⟨.first, posA, x, posA + stride, posB⟩
  else if posB < stopB then
    let y ← read .second posB
    return some ⟨.second, posB, y, posA, posB + stride⟩
  else return none

@[specialize] def walkFrom (read : τ → Side → Nat → Except Fault (Word k)) (stride stopA stopB : Nat)
    (emit : τ → Side → Nat → Except Fault (Except Error Unit × τ)) :
    Nat → Nat → Nat → Option (Word k) → τ → Except Fault (Except Error Unit × τ)
  | 0, _, _, _, t => .ok (.ok (), t)
  | fuel + 1, posA, posB, last, t => do
      match ← next? (read t) stride stopA stopB posA posB with
      | none => return (.ok (), t)
      | some step =>
          if last = some step.key then
            walkFrom read stride stopA stopB emit fuel step.nextA step.nextB last t
          else
            match ← emit t step.side step.pos with
            | (.error e, t) => return (.error e, t)
            | (.ok (), t) =>
                walkFrom read stride stopA stopB emit fuel step.nextA step.nextB (some step.key) t

/-- Hands the records of the union to `emit`, in key order, until it answers an error. The ranges are
read in the state that `emit` leaves. -/
@[specialize] def walk (read : τ → Side → Nat → Except Fault (Word k)) (stride startA stopA startB stopB : Nat)
    (emit : τ → Side → Nat → Except Fault (Except Error Unit × τ)) (t : τ) :
    Except Fault (Except Error Unit × τ) :=
  walkFrom read stride stopA stopB emit ((stopA - startA) / stride + (stopB - startB) / stride)
    startA startB none t

@[specialize] def copyRecord (read : υ → Nat → Except Fault (Word k))
    (write : υ → Nat → Word k → Except Fault υ) : Nat → Nat → Nat → υ → Except Fault υ
  | 0, _, _, out => .ok out
  | n + 1, pos, place, out => do
      let w ← read out pos
      copyRecord read write n (pos + 1) (place + 1) (← write out place w)

/-- Writes the union to `start..stop` and answers how many words it has; once it outgrows the range, the
records that fit stay there. What is written may show in the ranges that are read. -/
@[specialize] def mergeOver (read : υ → Side → Nat → Except Fault (Word k))
    (write : υ → Nat → Word k → Except Fault υ) (out : υ)
    (stride start stop startA stopA startB stopB : Nat) : Except Fault (Except Error Nat × υ) := do
  let (r, out, pos) ← walk (fun (out, _) => read out) stride startA stopA startB stopB
    (fun (out, pos) side place =>
      if stop < pos + stride then
        .ok (.error (.destinationTooSmall (pos + stride - start) (stop - start)), out, pos)
      else do
        let out ← copyRecord (fun out => read out side) write stride place pos out
        return (.ok (), out, pos + stride))
    (out, start)
  match r with
  | .error e => return (.error e, out)
  | .ok () => return (.ok (pos - start), out)

/-- The union of ranges of two storages, written to a third. -/
@[specialize] def merge [Cells σ k] [Cells ρ k] [Cells υ k] (out : υ) (a : σ) (b : ρ)
    (stride start stop startA stopA startB stopB : Nat) : Except Fault (Except Error Nat × υ) :=
  mergeOver (fun _ => readSide a b) Cells.set out stride start stop startA stopA startB stopB

@[specialize] def count [Cells σ k] [Cells ρ k] (a : σ) (b : ρ) (stride startA stopA startB stopB : Nat) :
    Except Fault Nat := do
  let (_, n) ← walk (fun _ => readSide a b) stride startA stopA startB stopB
    (fun n _ _ => .ok (.ok (), n + 1)) 0
  return n

@[specialize] def combineFrom (readDest readSource : υ → Nat → Except Fault (Word k))
    (write : υ → Nat → Word k → Except Fault υ) (f : τ → Word k → Word k → Word k × τ)
    (stop stopS : Nat) :
    Nat → Nat → Nat → υ → Nat → τ → Except Fault (Nat × υ × τ)
  | 0, _, _, dest, n, t => .ok (n, dest, t)
  | fuel + 1, pos, posS, dest, n, t =>
      if pos < stop ∧ posS < stopS then do
        let x ← readDest dest pos
        let y ← readSource dest posS
        if x < y then combineFrom readDest readSource write f stop stopS fuel (pos + 2) posS dest n t
        else if y < x then combineFrom readDest readSource write f stop stopS fuel pos (posS + 2) dest n t
        else do
          let (w, t) := f t (← readDest dest (pos + 1)) (← readSource dest (posS + 1))
          let dest ← write dest (pos + 1) w
          combineFrom readDest readSource write f stop stopS fuel (pos + 2) (posS + 2) dest (n + 1) t
      else .ok (n, dest, t)

/-- Gives each value of the destination whose key is also in the source what `f` makes of both values. A
write to the destination may show in the source. -/
@[specialize] def combineOver (readDest readSource : υ → Nat → Except Fault (Word k))
    (write : υ → Nat → Word k → Except Fault υ) (dest : υ)
    (f : τ → Word k → Word k → Word k × τ) (t : τ) (start stop startS stopS : Nat) : Except Fault (Nat × υ × τ) :=
  combineFrom readDest readSource write f stop stopS ((stop - start) / 2 + (stopS - startS) / 2)
    start startS dest 0 t

@[specialize] def combine [Cells σ k] [Cells ρ k] (dest : σ) (source : ρ)
    (f : τ → Word k → Word k → Word k × τ) (t : τ) (start stop startS stopS : Nat) :
    Except Fault (Nat × σ × τ) :=
  combineOver Cells.get (fun _ => Cells.get source) Cells.set dest f t start stop startS stopS

end Union
end PagedWords
