import PagedWords.Search.Code
import Mathlib.Algebra.Group.Int.Defs
import Mathlib.Algebra.Group.Nat.Defs
import Mathlib.Tactic.Cases

/-!
# Which findings can be read back from their codes

The stride and the position of a finding are taken as signed numbers, and a code has to be one too. So a large position
is coded as if it were negative, and a miss near the lower end of the codes has none, or one that cannot be negated.
What is read back is told by two bounds on the sum of the stride and the position.
-/
namespace PagedWords
variable {stride n p : Nat} {i code value : Int}

theorem positionLimit_eq : (positionLimit : Int) = 18446744073709551616 := rfl

theorem asSigned_bounds (n : Nat) : -signedLimit ≤ asSigned n ∧ asSigned n < signedLimit := by
  have hle : -((positionLimit : Int) / 2) ≤ asSigned n := Int.le_bmod (by decide)
  have hlt : asSigned n < ((positionLimit : Int) + 1) / 2 := Int.bmod_lt (by decide)
  rw [positionLimit_eq] at hle hlt
  simp only [signedLimit]
  omega

theorem bmod_of_bounds (h : -signedLimit ≤ i ∧ i < signedLimit) : i.bmod positionLimit = i := by
  have hlimit := positionLimit_eq
  simp only [signedLimit] at h
  apply Int.bmod_eq_of_le
  · omega
  · omega

theorem asSigned_eq_iff : asSigned n = n ↔ n < 2 ^ 63 := by
  constructor
  · intro h
    have hlt := (asSigned_bounds n).2
    simp only [signedLimit] at hlt
    omega
  · intro h
    apply bmod_of_bounds
    simp only [signedLimit]
    omega

private theorem asSigned_asUnsigned (h : -signedLimit ≤ i ∧ i < signedLimit) : asSigned (asUnsigned i) = i := by
  have hnonneg : 0 ≤ i % positionLimit := Int.emod_nonneg i (by decide)
  rw [asSigned, asUnsigned, Int.toNat_of_nonneg hnonneg, Int.emod_bmod, bmod_of_bounds h]

private theorem asUnsigned_of_nonneg (h : 0 ≤ i) (hlt : i < signedLimit) : (asUnsigned i : Int) = i := by
  have hnonneg : 0 ≤ i % positionLimit := Int.emod_nonneg i (by decide)
  rw [asUnsigned, Int.toNat_of_nonneg hnonneg, positionLimit_eq]
  simp only [signedLimit] at hlt
  omega

theorem encodeMiss_eq_ok_iff : encodeMiss stride value = .ok code ↔
    code = -asSigned stride - max value 0 ∧ -signedLimit < asSigned stride ∧ -signedLimit ≤ code := by
  have hs := asSigned_bounds stride
  simp only [encodeMiss, bind_eq_ok_iff, signedResult_eq_ok_iff]
  constructor
  · rintro ⟨low, ⟨rfl, hlow⟩, rfl, hcode⟩
    omega
  · rintro ⟨hcode, hstride, hlow⟩
    exact ⟨-asSigned stride, ⟨rfl, by omega⟩, by omega⟩

theorem decodeMiss_eq_ok_iff (hneg : code < 0) : decodeMiss stride code = .ok value ↔
    value = -code - asSigned stride ∧ -signedLimit < code ∧ -signedLimit ≤ value ∧ value < signedLimit := by
  simp only [decodeMiss, bind_eq_ok_iff, signedResult_eq_ok_iff]
  constructor
  · rintro ⟨place, ⟨rfl, hplace⟩, rfl, hvalue⟩
    omega
  · rintro ⟨hvalue, hcode, hrange⟩
    have hlimit : 0 < signedLimit := by decide
    exact ⟨-code, ⟨rfl, by omega⟩, by omega⟩

namespace Finding

theorem decode_of_nonneg (h : 0 ≤ code) : decode stride code = .ok (found code.toNat) := if_pos h

theorem decode_of_neg (h : code < 0) :
    decode stride code = decodeMiss stride code >>= fun value => .ok (missing (asUnsigned value)) := by
  rw [decode, if_neg (by omega)]
  cases decodeMiss stride code with
  | error fault => rfl
  | ok value => rfl

/-- A hit is read back unless its position is taken for a negative number. -/
theorem decode_encode_found_iff : (found p).encode stride >>= decode stride = .ok (found p) ↔ p < 2 ^ 63 := by
  rw [← asSigned_eq_iff, bind_eq_ok_iff]
  constructor
  · rintro ⟨code, hencode, hdecode⟩
    obtain rfl : asSigned p = code := Except.ok.inj hencode
    rcases Int.lt_or_le (asSigned p) 0 with hneg | hnonneg
    · simp [decode_of_neg hneg, bind_eq_ok_iff] at hdecode
    · simp only [decode_of_nonneg hnonneg, Except.ok.injEq, found.injEq] at hdecode
      omega
  · intro h
    exact ⟨p, congrArg Except.ok h, decode_of_nonneg (Int.natCast_nonneg p)⟩

/-- A miss is read back where its code is negative and can be negated. -/
theorem decode_encode_missing_iff : (missing p).encode stride >>= decode stride = .ok (missing p) ↔
    p < 2 ^ 63 ∧ 1 ≤ asSigned stride + p ∧ asSigned stride + p ≤ 2 ^ 63 - 1 := by
  have hp := asSigned_bounds p
  rw [bind_eq_ok_iff]
  constructor
  · rintro ⟨code, hencode, hdecode⟩
    obtain ⟨hcode, hstride, hlow⟩ := encodeMiss_eq_ok_iff.1 hencode
    rcases Int.lt_or_le code 0 with hneg | hnonneg
    · simp only [decode_of_neg hneg, bind_eq_ok_iff, decodeMiss_eq_ok_iff hneg] at hdecode
      obtain ⟨value, ⟨hvalue, hnegated, hrange⟩, hread⟩ := hdecode
      simp only [Except.ok.injEq, missing.injEq] at hread
      have hplace := asUnsigned_of_nonneg (i := value) (by omega) hrange.2
      rw [hread] at hplace
      have hsmall : p < 2 ^ 63 := by
        simp only [signedLimit] at hrange
        omega
      rw [asSigned_eq_iff.2 hsmall] at hcode
      simp only [signedLimit] at hnegated
      omega
    · simp [decode_of_nonneg hnonneg] at hdecode
  · rintro ⟨hsmall, hneg, hlow⟩
    have hplace := asSigned_eq_iff.2 hsmall
    have hlimit : signedLimit = 2 ^ 63 := rfl
    refine ⟨-asSigned stride - p, encodeMiss_eq_ok_iff.2 ⟨by omega, by omega, by omega⟩, ?_⟩
    rw [decode_of_neg (by omega), bind_eq_ok_iff]
    refine ⟨p, (decodeMiss_eq_ok_iff (by omega)).2 (by omega), ?_⟩
    have hread := asUnsigned_of_nonneg (i := p) (by omega) (by omega)
    simp only [Except.ok.injEq, missing.injEq]
    omega

/-- From a positive stride on, the codes that are read and written again are those of the positions, and those of the
misses that can be negated. -/
theorem encode_decode_iff (h : 1 ≤ asSigned stride) : decode stride code >>= encode stride = .ok code ↔
    0 ≤ code ∧ code ≤ 2 ^ 63 - 1 ∨ -2 ^ 63 < code ∧ code ≤ -asSigned stride := by
  have hlimit : signedLimit = 2 ^ 63 := rfl
  rw [bind_eq_ok_iff]
  rcases Int.lt_or_le code 0 with hneg | hnonneg
  · simp only [decode_of_neg hneg, bind_eq_ok_iff, decodeMiss_eq_ok_iff hneg]
    constructor
    · rintro ⟨f, ⟨value, ⟨hvalue, hnegated, hrange⟩, hread⟩, hencode⟩
      obtain rfl := Except.ok.inj hread
      have hcode := (encodeMiss_eq_ok_iff.1 hencode).1
      rw [asSigned_asUnsigned hrange] at hcode
      omega
    · intro hcode
      have hrange : -signedLimit ≤ -code - asSigned stride ∧ -code - asSigned stride < signedLimit := by omega
      refine ⟨_, ⟨_, ⟨rfl, by omega, hrange⟩, rfl⟩, encodeMiss_eq_ok_iff.2 ?_⟩
      rw [asSigned_asUnsigned hrange]
      omega
  · rw [decode_of_nonneg hnonneg]
    constructor
    · rintro ⟨f, hread, hencode⟩
      obtain rfl := Except.ok.inj hread
      have hcode : asSigned code.toNat = code := Except.ok.inj hencode
      have hlt := (asSigned_bounds code.toNat).2
      omega
    · intro hcode
      have hplace : asSigned code.toNat = code.toNat := asSigned_eq_iff.2 (by omega)
      rw [Int.toNat_of_nonneg hnonneg] at hplace
      exact ⟨_, rfl, congrArg Except.ok hplace⟩

theorem eq_of_encode_eq {f g : Finding} (hf : f.encode stride >>= decode stride = .ok f)
    (hg : g.encode stride >>= decode stride = .ok g) (h : f.encode stride = g.encode stride) : f = g := by
  rw [h, hg] at hf
  exact (Except.ok.inj hf).symm

/-- A finding is read back from its code on exactly this domain: a hit below the middle of the positions; a miss there
too, if its position and the stride make up a positive signed number. From a positive stride on, the codes that are
written again as they were read are the positions and the misses from the first position on. No hit and no miss within
the bounds have one code. -/
theorem codes_read_back (stride : Nat) :
    (∀ p, (found p).encode stride >>= decode stride = .ok (found p) ↔ p < 2 ^ 63) ∧
    (∀ p, (missing p).encode stride >>= decode stride = .ok (missing p) ↔
      p < 2 ^ 63 ∧ 1 ≤ asSigned stride + p ∧ asSigned stride + p ≤ 2 ^ 63 - 1) ∧
    (1 ≤ asSigned stride → ∀ code, decode stride code >>= encode stride = .ok code ↔
      0 ≤ code ∧ code ≤ 2 ^ 63 - 1 ∨ -2 ^ 63 < code ∧ code ≤ -asSigned stride) ∧
    ∀ p q : Nat, p < 2 ^ 63 → q < 2 ^ 63 → 1 ≤ asSigned stride + q → asSigned stride + q ≤ 2 ^ 63 - 1 →
      (found p).encode stride ≠ (missing q).encode stride := by
  refine ⟨fun p => decode_encode_found_iff, fun p => decode_encode_missing_iff, fun h code => encode_decode_iff h, ?_⟩
  intro p q hp hq hneg hlow hsame
  have hmissing := decode_encode_missing_iff.2 ⟨hq, hneg, hlow⟩
  cases eq_of_encode_eq (decode_encode_found_iff.2 hp) hmissing hsame

/-- With a stride of two the miss at 7 has the code -9, which is read back; with the stride `2 ^ 64 - 3`, which counts
as -3, the miss at 4 has the code -1. -/
theorem codes_read_back_of_stride_two :
    decode 2 (-9) >>= encode 2 = .ok (-9) ∧ (found 7).encode 2 ≠ (missing 7).encode 2 ∧
    (found 7).encode (2 ^ 64 - 3) ≠ (missing 4).encode (2 ^ 64 - 3) := by
  have htwo : asSigned 2 = 2 := rfl
  have hthree : asSigned (2 ^ 64 - 3) = -3 := rfl
  obtain ⟨-, -, hread, hdistinct⟩ := codes_read_back 2
  obtain ⟨-, -, -, hdistinct'⟩ := codes_read_back (2 ^ 64 - 3)
  rw [htwo] at hread hdistinct
  rw [hthree] at hdistinct'
  exact ⟨(hread (by decide) (-9)).2 (by decide), hdistinct 7 7 (by decide) (by decide) (by decide) (by decide),
    hdistinct' 7 4 (by decide) (by decide) (by decide) (by decide)⟩

end Finding

end PagedWords
