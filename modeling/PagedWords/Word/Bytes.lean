import PagedWords.Word

/-! # Words as little-endian bytes -/
namespace PagedWords

/-- The `n` low bytes of `v`, least significant first. -/
def littleEndian : Nat → Nat → List UInt8
  | 0, _ => []
  | n + 1, v => UInt8.ofNat v :: littleEndian n (v / 256)

def ofLittleEndian : List UInt8 → Nat
  | [] => 0
  | b :: bs => b.toNat + 256 * ofLittleEndian bs

@[simp] theorem length_littleEndian (n v : Nat) : (littleEndian n v).length = n := by
  induction n generalizing v with
  | zero => rfl
  | succ n ih => simp [littleEndian, ih]

theorem ofLittleEndian_littleEndian (n v : Nat) :
    ofLittleEndian (littleEndian n v) = v % (1 <<< (8 * n)) := by
  induction n generalizing v with
  | zero => simp [littleEndian, ofLittleEndian, Nat.mod_one]
  | succ n ih =>
    have hb : (UInt8.ofNat v).toNat = v % 256 := UInt8.toNat_ofNat'
    have hp : 1 <<< (8 * (n + 1)) = 256 * (1 <<< (8 * n)) := by
      rw [Nat.mul_succ, Nat.shiftLeft_add, Nat.shiftLeft_eq, Nat.mul_comm]
    rw [littleEndian, ofLittleEndian, ih, hb, hp, Nat.mod_mul]

namespace Word
variable {k : Width}

def encode (w : Word k) : List UInt8 := littleEndian k.bytes (w.val % k.count).toNat

def decode (bytes : List UInt8) : Word k := ofInt (ofLittleEndian (bytes.take k.bytes))

@[simp] theorem length_encode (w : Word k) : w.encode.length = k.bytes := length_littleEndian _ _

theorem decode_encode (w : Word k) : decode w.encode = w := by
  have hl := w.lower
  have hu := w.upper
  have hc := k.count_eq
  have hp : (0 : Int) < k.count := by cases k <;> decide
  have h0 := Int.emod_nonneg w.val (Int.ne_of_gt hp)
  have hlt := Int.emod_lt_of_pos w.val hp
  have hn : (w.val % k.count).toNat % (1 <<< (8 * k.bytes)) = (w.val % k.count).toNat := by
    rw [← k.count_eq_shift]; apply Nat.mod_eq_of_lt; omega
  rw [decode, List.take_of_length_le (by simp), encode, ofLittleEndian_littleEndian, hn,
    Int.toNat_of_nonneg h0]
  ext
  rw [val_ofInt, Int.emod_bmod]
  exact Int.bmod_eq_of_le (by omega) (by omega)

def encodeAll (ws : List (Word k)) : List UInt8 := ws.flatMap encode

/-- The first `n` words of a byte string; missing bytes count as zero. -/
def decodeCount : Nat → List UInt8 → List (Word k)
  | 0, _ => []
  | n + 1, bytes => decode bytes :: decodeCount n (bytes.drop k.bytes)

/-- The words of a byte string; an incomplete last word is left out. -/
def decodeAll (bytes : List UInt8) : List (Word k) := decodeCount (bytes.length / k.bytes) bytes

@[simp] theorem length_decodeCount (n : Nat) (bytes : List UInt8) :
    (decodeCount n bytes : List (Word k)).length = n := by
  induction n generalizing bytes with
  | zero => rfl
  | succ n ih => simp [decodeCount, ih]

@[simp] theorem length_encodeAll (ws : List (Word k)) : (encodeAll ws).length = ws.length * k.bytes := by
  induction ws with
  | nil => simp [encodeAll]
  | cons w ws ih =>
    simp only [encodeAll, List.flatMap_cons, List.length_append, length_encode, List.length_cons] at *
    rw [ih, Nat.succ_mul, Nat.add_comm]

theorem decode_encode_append (w : Word k) (rest : List UInt8) : decode (w.encode ++ rest) = w := by
  have h : (w.encode ++ rest).take k.bytes = w.encode := List.take_left' (length_encode w)
  rw [decode, h]
  have hd := decode_encode w
  rwa [decode, List.take_of_length_le (by simp)] at hd

theorem decodeCount_encodeAll (ws : List (Word k)) (rest : List UInt8) :
    decodeCount ws.length (encodeAll ws ++ rest) = ws := by
  induction ws with
  | nil => rfl
  | cons w ws ih =>
    have hd : (w.encode ++ (encodeAll ws ++ rest)).drop k.bytes = encodeAll ws ++ rest :=
      List.drop_left' (length_encode w)
    rw [show encodeAll (w :: ws) = w.encode ++ encodeAll ws from rfl, List.append_assoc, List.length_cons,
      decodeCount, decode_encode_append, hd, ih]

end Word
end PagedWords
