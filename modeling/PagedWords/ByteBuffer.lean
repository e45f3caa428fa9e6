import Std.Data.HashMap
import PagedWords.Host
import PagedWords.Word.Bytes

/-!
# Buffers of bytes, which can also be read and written as words

Only the bytes that were written are kept, so a large buffer of zeros costs nothing.
-/
namespace PagedWords

/-- The memory of a buffer may be larger than the buffer. -/
structure ByteBuffer where
  size : Nat
  capacity : Nat
  written : Std.HashMap Nat UInt8

namespace ByteBuffer
variable {k : Width}

/-- A buffer of `n` zero bytes in units of one kind, for a run that holds `held` bytes of memory. -/
def allocate (host : Host) (held : Nat) (large : Bool) (n : Nat) : Except Fault (Except IoCause ByteBuffer) := do
  let capacity ← host.rounded large n
  return (host.memory held ⟨capacity, large⟩).map (fun () => ⟨n, capacity, ∅⟩)

/-- A buffer in large units if the system has them and grants them, and in regular ones otherwise. -/
def allocateLarge (host : Host) (held n : Nat) : Except Fault (Except IoCause ByteBuffer) := do
  if host.largeUnits then
    match ← allocate host held true n with
    | .ok b => return .ok b
    | .error _ => allocate host held false n
  else allocate host held false n

def zeroedWords (host : Host) (k : Width) (held n : Nat) : Except Fault (Except IoCause ByteBuffer) :=
  if positionLimit ≤ n * k.bytes then .ok (.error (.other "buffer size overflows usize"))
  else if host.unit true ≤ n * k.bytes then allocateLarge host held (n * k.bytes)
  else allocate host held false (n * k.bytes)

def isEmpty (b : ByteBuffer) : Bool := b.size == 0

def sum (b : ByteBuffer) : Nat := b.written.fold (fun n _ x => n + x.toNat) 0

def get (b : ByteBuffer) (i : Nat) : Except Fault UInt8 :=
  if i < b.size then .ok (b.written.getD i 0) else .error .badIndex

def set (b : ByteBuffer) (i : Nat) (v : UInt8) : Except Fault ByteBuffer :=
  if i < b.size then .ok { b with written := b.written.insert i v } else .error .badIndex

/-- The number of words of the width; the buffer has to consist of whole ones. -/
def wordCount (b : ByteBuffer) (k : Width) : Except Fault Nat :=
  if b.size % k.bytes = 0 then .ok (b.size / k.bytes) else .error .broken

def getWord (b : ByteBuffer) (k : Width) (i : Nat) : Except Fault (Word k) := do
  let n ← b.wordCount k
  if i < n then return Word.decode (← (List.range' (i * k.bytes) k.bytes).mapM b.get)
  else throw .badIndex

def setBytes : List UInt8 → Nat → ByteBuffer → Except Fault ByteBuffer
  | [], _, b => .ok b
  | v :: vs, i, b => do setBytes vs (i + 1) (← b.set i v)

def setWord (b : ByteBuffer) (i : Nat) (w : Word k) : Except Fault ByteBuffer := do
  let n ← b.wordCount k
  if i < n then setBytes w.encode (i * k.bytes) b else throw .badIndex

end ByteBuffer
end PagedWords
