import PagedWords.Error

/-! # Checks of position ranges and record strides -/
namespace PagedWords

/-- The refusal of a range that does not lie within `0..size`. -/
def Error.rangeOutside (start stop size : Nat) : Error :=
  .invalidArgument "range" s!"{start}..{stop} is not within 0..{size}"

def checkArgument (holds : Bool) (name condition : String) : Except Error Unit :=
  if holds then .ok () else .error (.invalidArgument name condition)

def checkPositive (value : Int) : Except Error Unit :=
  checkArgument (0 < value) "value" "value > 0"

def checkRange (start stop size : Nat) : Except Error Unit :=
  if start ≤ stop ∧ stop ≤ size then .ok () else .error (.rangeOutside start stop size)

/-- A reversed range has length zero, which is a multiple of every stride. -/
def checkStride (start stop stride : Nat) : Except Error Unit :=
  if stride = 0 then .error (.invalidArgument "stride" "stride > 0")
  else if (stop - start) % stride = 0 then .ok ()
  else .error (.strideMismatch (stop - start) stride)

/-- Whether `start..stop` lies within `0..size` and holds whole records of `stride` words. -/
def checkRecords (start stop size stride : Nat) : Except Error Unit := do
  checkRange start stop size
  checkStride start stop stride

theorem checkRange_eq_ok_iff {start stop size : Nat} :
    checkRange start stop size = .ok () ↔ start ≤ stop ∧ stop ≤ size := by
  unfold checkRange; split <;> simp_all

theorem checkStride_eq_ok_iff {start stop stride : Nat} :
    checkStride start stop stride = .ok () ↔ 0 < stride ∧ (stop - start) % stride = 0 := by
  unfold checkStride; split
  · simp_all
  · split <;> simp_all; omega

theorem checkRecords_eq_ok_iff {start stop size stride : Nat} :
    checkRecords start stop size stride = .ok () ↔
      start ≤ stop ∧ stop ≤ size ∧ 0 < stride ∧ (stop - start) % stride = 0 := by
  rw [← and_assoc, ← checkRange_eq_ok_iff, ← checkStride_eq_ok_iff]
  unfold checkRecords
  cases h : checkRange start stop size <;> simp [bind, Except.bind]

/-- Of a range that lies within the storage only the stride is in question. -/
theorem checkRecords_of_le {start stop size : Nat} (hle : start ≤ stop) (hl : stop ≤ size) (stride : Nat) :
    checkRecords start stop size stride = checkStride start stop stride := by
  have hrange : checkRange start stop size = .ok () := checkRange_eq_ok_iff.2 ⟨hle, hl⟩
  rw [checkRecords, hrange]
  rfl

theorem checkRecords_of_outside {start stop size : Nat} (h : ¬(start ≤ stop ∧ stop ≤ size)) (stride : Nat) :
    checkRecords start stop size stride = .error (.rangeOutside start stop size) := by
  have hrange : checkRange start stop size = .error (.rangeOutside start stop size) := if_neg h
  rw [checkRecords, hrange]
  rfl

theorem checkRecords_congr {start start' stop stop' size size' : Nat} (hle : start ≤ stop) (hl : stop ≤ size)
    (hl' : stop' ≤ size') (h : start' + (stop - start) = stop') (stride : Nat) :
    checkRecords start' stop' size' stride = checkRecords start stop size stride := by
  have hspan : stop' - start' = stop - start := by omega
  rw [checkRecords_of_le (by omega) hl', checkRecords_of_le hle hl, checkStride, checkStride, hspan]

end PagedWords
