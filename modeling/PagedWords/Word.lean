/-! # Signed words of 32 or 64 bits -/
namespace PagedWords

inductive Width | w32 | w64 deriving DecidableEq, Repr

namespace Width

def bytes : Width → Nat
  | w32 => 4 | w64 => 8

/-- Words lie between `-k.half` and `k.half`. -/
def half : Width → Int
  | w32 => 0x80000000 | w64 => 0x8000000000000000

def count : Width → Nat
  | w32 => 1 <<< 32 | w64 => 1 <<< 64

/-- Fewer records than this are searched one by one. -/
def linearCutoff : Width → Nat
  | w32 => 64 | w64 => 32

theorem bytes_pos (k : Width) : 0 < k.bytes := by cases k <;> decide

theorem linearCutoff_pos (k : Width) : 0 < k.linearCutoff := by cases k <;> decide

theorem count_eq (k : Width) : (k.count : Int) = 2 * k.half := by cases k <;> decide

theorem count_eq_shift (k : Width) : k.count = 1 <<< (8 * k.bytes) := by cases k <;> decide

end Width

/-- A signed integer that fits the width. -/
structure Word (k : Width) where
  val : Int
  lower : -k.half ≤ val
  upper : val < k.half
deriving DecidableEq

abbrev Words (k : Width) := Array (Word k)

namespace Word
variable {k : Width}

@[ext] theorem ext {a b : Word k} (h : a.val = b.val) : a = b := by
  cases a; cases b; simp_all

instance : LE (Word k) := ⟨fun a b => a.val ≤ b.val⟩
instance : LT (Word k) := ⟨fun a b => a.val < b.val⟩
instance : DecidableLE (Word k) := fun a b => inferInstanceAs (Decidable (a.val ≤ b.val))
instance : DecidableLT (Word k) := fun a b => inferInstanceAs (Decidable (a.val < b.val))

/-- The word that agrees with `i` modulo the number of words. -/
def ofInt (i : Int) : Word k where
  val := i.bmod k.count
  lower := by
    have h := @Int.le_bmod i k.count (by cases k <;> decide)
    have hc := k.count_eq
    omega
  upper := by
    have h := @Int.bmod_lt i k.count (by cases k <;> decide)
    have hc := k.count_eq
    omega

@[simp] theorem val_ofInt (i : Int) : (ofInt i : Word k).val = i.bmod k.count := rfl

def zero : Word k := ofInt 0

instance : Inhabited (Word k) := ⟨zero⟩

/-- The next word; the largest is followed by the smallest. -/
def succ (a : Word k) : Word k := ofInt (a.val + 1)

def min (a b : Word k) : Word k := if a ≤ b then a else b

end Word
end PagedWords
