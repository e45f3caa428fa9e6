import PagedWords.Error
import PagedWords.Fault

/-!
# The system below

Memory and files are the system's. It is asked for them step by step, and each step it grants or refuses. Nothing
is taken for granted of it but what a statement names.
-/
namespace PagedWords

inductive Access | readOnly | readWrite deriving DecidableEq, Repr

/-- Memory in whole units, large ones or regular ones. -/
structure MemoryRequest where
  bytes : Nat
  large : Bool
deriving DecidableEq, Repr

/-- A step with a file. -/
inductive FileStep
  | opening (access : Access)
  | creating
  | measuring
  | lengthening (n : Nat)
  | viewing (offset n : Nat) (access : Access)
  | reading (pos n : Nat)
  | writing (n : Nat)
  | syncing
deriving DecidableEq, Repr

/-- Why a step failed, and how many bytes it had moved by then. -/
structure Refusal where
  cause : IoCause
  moved : Nat
deriving DecidableEq, Repr

/-- A system, by its answers. What arrives of bytes that are read into a view of themselves, so many bytes further
on, is its own affair too. -/
structure Host where
  unitShift : Fin 64
  largeShift : Fin 64
  largeUnits : Bool
  memory (held : Nat) (request : MemoryRequest) : Except IoCause Unit
  file (name : String) (step : FileStep) : Except Refusal Unit
  overlapped (shift : Int) (bytes : Array UInt8) : Array UInt8

namespace Host

def unit (host : Host) (large : Bool) : Nat := 1 <<< (if large then host.largeShift else host.unitShift).val

/-- The bytes that `n` bytes take up in whole units; even none take up one. A whole unit is added before they are
cut, and the sum has to be a position. -/
def rounded (host : Host) (large : Bool) (n : Nat) : Except Fault Nat := do
  let padded ← addPosition (max n 1) (host.unit large)
  return (padded - 1) / host.unit large * host.unit large

/-- A step that moves no bytes. -/
def step (host : Host) (name : String) (s : FileStep) : Except IoCause Unit := (host.file name s).mapError Refusal.cause

/-- Up to `n` bytes can be rounded up, and in regular units they are granted. -/
structure GrantsMemory (host : Host) (n : Nat) : Prop where
  rounds : ∀ large, max n 1 + host.unit large < positionLimit
  regular : ∀ held m bytes, m ≤ n → host.rounded false m = .ok bytes → host.memory held ⟨bytes, false⟩ = .ok ()

/-- The file may be opened and measured, and its first `n` bytes may be viewed in any pieces. -/
structure GrantsViews (host : Host) (name : String) (access : Access) (n : Nat) : Prop where
  opening : host.step name (.opening access) = .ok ()
  measuring : host.step name .measuring = .ok ()
  viewing : ∀ offset len, offset + len ≤ n → host.step name (.viewing offset len access) = .ok ()

/-- The file may be read up to byte `n`. -/
def GrantsReads (host : Host) (name : String) (n : Nat) : Prop :=
  ∀ pos len, pos + len ≤ n → host.file name (.reading pos len) = .ok ()

/-- A new file of `n` bytes may be written. -/
structure GrantsSaving (host : Host) (name : String) (n : Nat) : Prop where
  creating : host.step name .creating = .ok ()
  writing : host.file name (.writing n) = .ok ()
  syncing : host.step name .syncing = .ok ()

def generous : Host where
  unitShift := 12
  largeShift := 21
  largeUnits := false
  memory _ _ := .ok ()
  file _ _ := .ok ()
  overlapped _ bytes := bytes

theorem rounded_of_lt {host : Host} {large : Bool} {n : Nat} (h : max n 1 + host.unit large < positionLimit) :
    ∃ bytes, host.rounded large n = .ok bytes := by
  simp only [rounded, addPosition_of_lt h]
  exact ⟨_, rfl⟩

theorem generous_grantsMemory {n : Nat} (h : n < 1 <<< 63) : generous.GrantsMemory n := by
  refine ⟨fun large => ?_, fun _ _ _ _ _ => rfl⟩
  have hunit : generous.unit large ≤ 1 <<< 21 := by cases large <;> decide
  have hlim : positionLimit = 1 <<< 63 + 1 <<< 63 := rfl
  omega

theorem generous_grantsViews (name : String) (access : Access) (n : Nat) : generous.GrantsViews name access n :=
  ⟨rfl, rfl, fun _ _ _ => rfl⟩

theorem generous_grantsReads (name : String) (n : Nat) : generous.GrantsReads name n := fun _ _ _ => rfl

theorem generous_grantsSaving (name : String) (n : Nat) : generous.GrantsSaving name n := ⟨rfl, rfl, rfl⟩

end Host
end PagedWords
