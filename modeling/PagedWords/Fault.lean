import PagedWords.Error

/-! # Faults that end a run, and 64-bit arithmetic that reports overflow as one -/
namespace PagedWords

/-- What ends a run at once, as opposed to an `Error`, which is an answer. -/
inductive Fault
  /-- an operation without an error answer met this error -/
  | raised (cause : Error)
  | badIndex | overflow | broken | allocation
  /-- words were read from a view of a file that had been cut off -/
  | cutOff
deriving DecidableEq, Repr

namespace Fault

def message? : Fault → Option String
  | raised cause => some cause.message
  | _ => none

end Fault

/-- Two steps end well if the first one does and then the second, with what the first one answers. -/
theorem bind_eq_ok_iff {ε α β : Type} {x : Except ε α} {f : α → Except ε β} {b : β} :
    x >>= f = .ok b ↔ ∃ a, x = .ok a ∧ f a = .ok b := by
  cases x with
  | error e => simp [bind, Except.bind]
  | ok a => simp [bind, Except.bind]

/-- One past the largest position, size or stride. -/
def positionLimit : Nat := 1 <<< 64

def addPosition (a b : Nat) : Except Fault Nat :=
  if a + b < positionLimit then .ok (a + b) else .error .overflow

def mulPosition (a b : Nat) : Except Fault Nat :=
  if a * b < positionLimit then .ok (a * b) else .error .overflow

def subPosition (a b : Nat) : Except Fault Nat :=
  if b ≤ a then .ok (a - b) else .error .overflow

/-- Signed 64-bit numbers lie between `-signedLimit` and `signedLimit`. -/
def signedLimit : Int := 0x8000000000000000

/-- A signed 64-bit result. -/
def signedResult (i : Int) : Except Fault Int :=
  if -signedLimit ≤ i ∧ i < signedLimit then .ok i else .error .overflow

theorem addPosition_of_lt {a b : Nat} (h : a + b < positionLimit) : addPosition a b = .ok (a + b) :=
  if_pos h

theorem mulPosition_of_lt {a b : Nat} (h : a * b < positionLimit) : mulPosition a b = .ok (a * b) :=
  if_pos h

theorem subPosition_of_le {a b : Nat} (h : b ≤ a) : subPosition a b = .ok (a - b) := if_pos h

theorem signedResult_eq_ok_iff {i j : Int} : signedResult i = .ok j ↔ i = j ∧ -signedLimit ≤ i ∧ i < signedLimit := by
  rw [signedResult]
  split
  · next h => simp [h]
  · next h => simp [h]

abbrev raise {α : Type} (e : Error) : Except Fault α := .error (.raised e)

/-- Runs a validated operation, or answers the error of its validation; what is refused is not run. -/
@[macro_inline] def whenValid {α : Type} (check : Except Error Unit) (run : Except Fault α) :
    Except Fault (Except Error α) :=
  match check with
  | .error e => .ok (.error e)
  | .ok () => .ok <$> run

theorem whenValid_error {α : Type} (e : Error) (run : Except Fault α) :
    whenValid (.error e) run = .ok (.error e) := rfl

theorem whenValid_ok {α : Type} (run : Except Fault α) : whenValid (.ok ()) run = .ok <$> run := rfl

/-- A validated operation that answers refuses what its validation refuses, and nothing else. -/
theorem refused_iff_of_whenValid {α : Type} {check : Except Error Unit} {run : Except Fault α} {r : Except Error α}
    (h : whenValid check run = .ok r) (e : Error) : r = .error e ↔ check = .error e := by
  cases check with
  | error e' =>
    cases Except.ok.inj h
    simp
  | ok c =>
    cases run with
    | error fault => cases h
    | ok x =>
      cases Except.ok.inj h
      simp

end PagedWords
