import PagedWords.Fault

/-! # Partitions of positions into pages of equal size -/
namespace PagedWords

/-- Pages of any positive size, or of `1 <<< shift` words. -/
inductive Partition | even (pageSize : Nat) | pow2 (shift : Nat)
deriving DecidableEq, Repr

namespace Partition

def defaultShift : Nat := 27

def evenOf (pageSize : Nat) : Except Error Partition :=
  if pageSize = 0 ∨ positionLimit ≤ pageSize then
    .error (.invalidArgument "page_size" "0 < page_size <= usize::MAX")
  else .ok (even pageSize)

def pow2Of (pageSize : Nat) : Except Error Partition :=
  if pageSize = 1 <<< pageSize.log2 ∧ pageSize < positionLimit then .ok (pow2 pageSize.log2)
  else .error (.invalidArgument "page_size" "page_size is a power of two")

def pageSize : Partition → Nat
  | even n => n
  | pow2 shift => 1 <<< shift

def page (p : Partition) (pos : Nat) : Nat :=
  match p with
  | even n => pos / n
  | pow2 shift => pos >>> shift

/-- The place of `pos` on its page. -/
def offset (p : Partition) (pos : Nat) : Nat :=
  match p with
  | even n => pos % n
  | pow2 shift => pos % (1 <<< shift)

/-- The first position of a page; a shift loses the bits above the 64th, a product overflows. -/
def pageStart (p : Partition) (page : Nat) : Except Fault Nat :=
  match p with
  | even n => mulPosition page n
  | pow2 shift => .ok ((page <<< shift) % positionLimit)

/-- Where the run from `pos` leaves its page or reaches `stop`. -/
def pageStop (p : Partition) (pos stop : Nat) : Except Fault Nat := do
  let next ← addPosition (p.page pos) 1
  let base ← p.pageStart next
  return min stop base

/-- One past the place of the last word of `start..stop`, which must not be empty. -/
def stopOffset (p : Partition) (start stop : Nat) : Except Fault Nat :=
  if start < stop then .ok (p.offset (stop - 1) + 1) else .error .broken

/-- An empty range lies on no page. -/
def samePage (p : Partition) (start stop : Nat) : Bool :=
  start < stop && p.page start == p.page (stop - 1)

def pageCount (p : Partition) (size : Nat) : Nat := (size + p.pageSize - 1) / p.pageSize

/-- The number of words on a page of an array of `size` words. -/
def pageLength (p : Partition) (page size : Nat) : Except Fault Nat := do
  let base ← p.pageStart page
  return min (size - base) p.pageSize

/-- The printed form of a partition. -/
def describe : Partition → String
  | even n => s!"SequentialPartitioningScheme \x7b page_size: {n} \x7d"
  | pow2 shift =>
      let mask := (1 <<< shift) - 1
      s!"PowerOf2PartitioningScheme \x7b shift: {shift}, mask: {mask} \x7d"

/-- What the constructors guarantee. -/
def Valid : Partition → Prop
  | even n => 0 < n ∧ n < positionLimit
  | pow2 shift => shift < 64

theorem valid_of_evenOf {n : Nat} {p : Partition} (h : evenOf n = .ok p) : p.Valid := by
  unfold evenOf at h
  split at h
  · cases h
  · cases h; simp only [Valid]; omega

theorem valid_of_pow2Of {n : Nat} {p : Partition} (h : pow2Of n = .ok p) : p.Valid := by
  unfold pow2Of at h
  split at h
  · next hn =>
    cases h
    have hlt : 1 <<< n.log2 < 1 <<< 64 := Nat.lt_of_le_of_lt (Nat.le_of_eq hn.1.symm) hn.2
    rw [Nat.one_shiftLeft, Nat.one_shiftLeft] at hlt
    exact (Nat.pow_lt_pow_iff_right (by decide)).1 hlt
  · cases h

theorem Valid.pageSize_pos {p : Partition} (h : p.Valid) : 0 < p.pageSize := by
  cases p with
  | even n => exact h.1
  | pow2 shift => rw [pageSize, Nat.one_shiftLeft]; exact Nat.two_pow_pos shift

theorem page_eq_div (p : Partition) (pos : Nat) : p.page pos = pos / p.pageSize := by
  cases p with
  | even n => rfl
  | pow2 shift => rw [page, pageSize, Nat.one_shiftLeft, Nat.shiftRight_eq_div_pow]

theorem offset_eq_mod (p : Partition) (pos : Nat) : p.offset pos = pos % p.pageSize := by
  cases p <;> rfl

end Partition
end PagedWords
