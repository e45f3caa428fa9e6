import PagedWords.Error
import PagedWords.Fault
import PagedWords.Word.Bytes

/-!
# Files: strings of bytes, and what their mappings hold past the end

A mapping may reach beyond the end of its file. What is written there is seen by every mapping of the
file and by nobody else: it never makes the file longer, and it is gone once the file is written anew
or grows.
-/
namespace PagedWords

abbrev Bytes := Array UInt8

namespace Bytes

/-- Positions in a file are below this. -/
def offsetLimit : Nat := 1 <<< 63

/-- Those of the `n` bytes from `pos` on that are there. -/
def slice (bytes : Bytes) (pos n : Nat) : Bytes := bytes.extract pos (pos + n)

def overwrite (bytes : Bytes) (pos : Nat) (new : Bytes) : Bytes :=
  bytes.extract 0 pos ++ new ++ bytes.extract (pos + new.size) bytes.size

def grow (bytes : Bytes) (n : Nat) : Bytes := bytes ++ Array.replicate (n - bytes.size) 0

/-- What a read of `n` bytes from `pos` on finds, and why it does not find more. -/
def readAt (bytes : Bytes) (pos n : Nat) : Bytes × Except IoCause Unit :=
  if offsetLimit ≤ pos + n then (#[], .error .invalidInput)
  else (slice bytes pos n, if bytes.size < pos + n then .error .unexpectedEnd else .ok ())

def ofWords {k : Width} (ws : List (Word k)) : Bytes := (Word.encodeAll ws).toArray

/-- The first `n` words; missing bytes count as zero. -/
def toWords {k : Width} (bytes : Bytes) (n : Nat) : List (Word k) := Word.decodeCount n bytes.toList

@[simp] theorem toList_slice (bytes : Bytes) (pos n : Nat) :
    (slice bytes pos n).toList = (bytes.toList.drop pos).take n := by
  simp [slice]

@[simp] theorem toList_overwrite (bytes : Bytes) (pos : Nat) (new : Bytes) :
    (overwrite bytes pos new).toList =
      bytes.toList.take pos ++ new.toList ++ bytes.toList.drop (pos + new.size) := by
  have ht := @List.take_of_length_le _ (bytes.size - (pos + new.size)) (bytes.toList.drop (pos + new.size))
    (by simp)
  simp [overwrite, ht]

@[simp] theorem toList_grow (bytes : Bytes) (n : Nat) :
    (grow bytes n).toList = bytes.toList ++ List.replicate (n - bytes.size) 0 := by
  simp [grow]

theorem grow_of_le {bytes : Bytes} {n : Nat} (h : n ≤ bytes.size) : grow bytes n = bytes := by
  simp [grow, Nat.sub_eq_zero_of_le h]

theorem readAt_of_le {bytes : Bytes} {pos n : Nat} (h : pos + n ≤ bytes.size) (hl : pos + n < offsetLimit) :
    readAt bytes pos n = (slice bytes pos n, .ok ()) := by
  rw [readAt, if_neg (Nat.not_le.2 hl), if_neg (Nat.not_lt.2 h)]

@[simp] theorem size_ofWords {k : Width} (ws : List (Word k)) : (ofWords ws).size = ws.length * k.bytes := by
  simp [ofWords]

end Bytes

/-- A file, and the bytes past its end that its mappings share; whatever lies beyond these is zero. -/
structure File where
  bytes : Bytes
  beyond : Bytes
deriving DecidableEq, Repr

namespace File

def ofBytes (bytes : Bytes) : File := ⟨bytes, #[]⟩

instance : Inhabited File := ⟨ofBytes #[]⟩

def image (f : File) : Bytes := if f.beyond.isEmpty then f.bytes else f.bytes ++ f.beyond

/-- The `n` words that a mapping shows from byte `offset` on. -/
def shownWords {k : Width} (f : File) (offset n : Nat) : List (Word k) :=
  Bytes.toWords (Bytes.slice f.image offset (n * k.bytes)) n

/-- A write through a mapping. The file keeps its size: what lies past its end goes beyond it. -/
def overwrite (f : File) (pos : Nat) (new : Bytes) : File :=
  let inside := Bytes.slice new 0 (f.bytes.size - pos)
  let outside := new.extract (f.bytes.size - pos) new.size
  let place := pos - f.bytes.size
  let beyond := Bytes.grow f.beyond (place + outside.size)
  ⟨Bytes.overwrite f.bytes pos inside, Bytes.overwrite beyond place outside⟩

def grow (f : File) (n : Nat) : File := ofBytes (Bytes.grow f.bytes n)

theorem image_eq_append (f : File) : f.image = f.bytes ++ f.beyond := by
  by_cases h : f.beyond.isEmpty
  · simp [image, Array.isEmpty_iff.1 h]
  · simp [image, h]

@[simp] theorem bytes_ofBytes (bytes : Bytes) : (ofBytes bytes).bytes = bytes := rfl

theorem size_bytes_overwrite (f : File) (pos : Nat) (new : Bytes) :
    (f.overwrite pos new).bytes.size = f.bytes.size := by
  simp only [overwrite, Bytes.overwrite, Bytes.slice, Array.size_append, Array.size_extract]
  omega

theorem overwrite_of_le {f : File} {pos : Nat} {new : Bytes} (h : pos + new.size ≤ f.bytes.size) :
    f.overwrite pos new = ⟨Bytes.overwrite f.bytes pos new, f.beyond⟩ := by
  have hs : Bytes.slice new 0 (f.bytes.size - pos) = new := by
    apply Array.toList_inj.1
    rw [Bytes.toList_slice, List.drop_zero]
    exact List.take_of_length_le (by simp; omega)
  have he : new.extract (f.bytes.size - pos) new.size = #[] := by
    apply Array.eq_empty_of_size_eq_zero
    simp; omega
  have hp : pos - f.bytes.size = 0 := by omega
  simp [overwrite, hs, he, hp, Bytes.overwrite, Bytes.grow]

end File
end PagedWords
