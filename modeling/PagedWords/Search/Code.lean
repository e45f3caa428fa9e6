import PagedWords.Search

/-! # Findings as signed numbers: a hit is its position, a miss is negative -/
namespace PagedWords

/-- The signed 64-bit number with the bits of `n`. -/
def asSigned (n : Nat) : Int := (n : Int).bmod positionLimit

/-- The unsigned 64-bit number with the bits of `i`. -/
def asUnsigned (i : Int) : Nat := (i % positionLimit).toNat

/-- A miss at a negative value counts as a miss at zero. -/
def encodeMiss (stride : Nat) (value : Int) : Except Fault Int := do
  let low ← signedResult (-asSigned stride)
  signedResult (low - max value 0)

def decodeMiss (stride : Nat) (code : Int) : Except Fault Int := do
  let value ← signedResult (-code)
  signedResult (value - asSigned stride)

namespace Finding

def encode (stride : Nat) : Finding → Except Fault Int
  | found p => .ok (asSigned p)
  | missing p => encodeMiss stride (asSigned p)

def decode (stride : Nat) (code : Int) : Except Fault Finding :=
  if 0 ≤ code then .ok (found code.toNat)
  else (fun v => missing (asUnsigned v)) <$> decodeMiss stride code

end Finding
end PagedWords
