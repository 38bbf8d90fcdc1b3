/-!
# Byte strings

A byte string is a list of bytes.  It is cut into whole pieces of one size and
what is left over; nothing is lost (`flatten_cut`).  Eight bytes make a machine
word, the first byte at the low end, and the word gives them back
(`bytesOfWord_wordOfBytes`).
-/

namespace InterleavedCrc

def wordBytes : Nat := 8

/-- The first `count` pieces of `n` bytes each, and the bytes after them. -/
def takePieces (n : Nat) : Nat → List UInt8 → List (List UInt8) × List UInt8
  | 0, data => ([], data)
  | count + 1, data =>
      let (pieces, rest) := takePieces n count (data.drop n)
      (data.take n :: pieces, rest)

/-- As many whole pieces of `n` bytes as `data` holds, and the rest.  There are
no pieces of size zero. -/
def cut (n : Nat) (data : List UInt8) : List (List UInt8) × List UInt8 :=
  takePieces n (data.length / n) data

theorem flatten_takePieces (n count : Nat) (data : List UInt8) :
    (takePieces n count data).1.flatten ++ (takePieces n count data).2 = data := by
  induction count generalizing data with
  | zero => rfl
  | succ count ih => simp [takePieces, ih, List.append_assoc]

theorem flatten_cut (n : Nat) (data : List UInt8) :
    (cut n data).1.flatten ++ (cut n data).2 = data :=
  flatten_takePieces n _ data

@[simp] theorem length_takePieces (n count : Nat) (data : List UInt8) :
    (takePieces n count data).1.length = count := by
  induction count generalizing data with
  | zero => rfl
  | succ count ih => simp [takePieces, ih]

@[simp] theorem length_cut (n : Nat) (data : List UInt8) :
    (cut n data).1.length = data.length / n :=
  length_takePieces n _ data

theorem length_of_mem_takePieces {n count : Nat} {data piece : List UInt8}
    (h : n * count ≤ data.length) (hp : piece ∈ (takePieces n count data).1) :
    piece.length = n := by
  induction count generalizing data with
  | zero => simp [takePieces] at hp
  | succ count ih =>
      rw [Nat.mul_succ] at h
      rcases List.mem_cons.1 hp with rfl | hp
      · simp only [List.length_take]; omega
      · exact ih (by simp only [List.length_drop]; omega) hp

theorem length_of_mem_cut {n : Nat} {data piece : List UInt8}
    (hp : piece ∈ (cut n data).1) : piece.length = n :=
  length_of_mem_takePieces (Nat.mul_div_le data.length n) hp

theorem length_le_of_mem_cut {n : Nat} {data piece : List UInt8}
    (hp : piece ∈ (cut n data).1) : piece.length ≤ data.length := by
  have hpos : 0 < data.length / n := length_cut n data ▸ List.length_pos_of_mem hp
  rw [length_of_mem_cut hp]
  exact (Nat.div_pos_iff.1 hpos).2

theorem length_rest_takePieces {n count : Nat} (data : List UInt8) :
    (takePieces n count data).2.length = data.length - n * count := by
  induction count generalizing data with
  | zero => rfl
  | succ count ih =>
      simp only [takePieces, ih, List.length_drop, Nat.mul_succ]
      omega

theorem length_rest_cut (n : Nat) (data : List UInt8) :
    (cut n data).2.length = data.length % n := by
  rw [cut, length_rest_takePieces, Nat.mod_eq_sub]

/-- The word that holds `bytes`, the first at the low end. -/
def wordOfBytes (bytes : List UInt8) : UInt64 :=
  bytes.foldr (fun byte word ↦ byte.toUInt64 ||| (word <<< 8)) 0

/-- The `count` lowest bytes of a word, from the low end. -/
def lowBytes : Nat → UInt64 → List UInt8
  | 0, _ => []
  | count + 1, word => word.toUInt8 :: lowBytes count (word >>> 8)

def bytesOfWord (word : UInt64) : List UInt8 := lowBytes wordBytes word

/-- Byte `i` of a word, counted from the low end. -/
def byteAt (word : UInt64) (i : UInt64) : UInt8 := (word >>> (8 * i)).toUInt8

@[simp] theorem wordOfBytes_nil : wordOfBytes [] = 0 := rfl

theorem wordOfBytes_cons (byte : UInt8) (bytes : List UInt8) :
    wordOfBytes (byte :: bytes) = byte.toUInt64 ||| (wordOfBytes bytes <<< 8) := rfl

@[simp] theorem length_lowBytes (count : Nat) (word : UInt64) :
    (lowBytes count word).length = count := by
  induction count generalizing word with
  | zero => rfl
  | succ count ih => simp [lowBytes, ih]

theorem toNat_wordOfBytes_cons (byte : UInt8) (bytes : List UInt8)
    (h : (wordOfBytes bytes).toNat * 256 < UInt64.size) :
    (wordOfBytes (byte :: bytes)).toNat = byte.toNat + 256 * (wordOfBytes bytes).toNat := by
  have hbyte := byte.toNat_lt
  rw [wordOfBytes_cons, UInt64.toNat_or, UInt64.toNat_shiftLeft]
  simp only [UInt8.toNat_toUInt64, UInt64.toNat_ofNat, Nat.reducePow, Nat.reduceMod]
  rw [Nat.shiftLeft_eq, Nat.mod_eq_of_lt h, Nat.or_comm, Nat.mul_comm,
    ← Nat.two_pow_add_eq_or_of_lt hbyte]
  omega

theorem wordOfBytes_lt {bytes : List UInt8} (h : bytes.length ≤ wordBytes) :
    (wordOfBytes bytes).toNat < 1 <<< (8 * bytes.length) := by
  rw [Nat.one_shiftLeft]
  induction bytes with
  | nil => simp
  | cons byte bytes ih =>
      simp only [List.length_cons, wordBytes] at h
      have hrest := ih (by unfold wordBytes; omega)
      have hsize : (wordOfBytes bytes).toNat * 256 < UInt64.size := by
        have : 2 ^ (8 * bytes.length) ≤ 2 ^ 56 := Nat.pow_le_pow_right (by decide) (by omega)
        have : UInt64.size = 72057594037927936 * 256 := rfl
        omega
      have hbyte := byte.toNat_lt
      rw [toNat_wordOfBytes_cons byte bytes hsize, List.length_cons, Nat.mul_succ, Nat.pow_add]
      omega

theorem lowBytes_wordOfBytes {bytes : List UInt8} (h : bytes.length ≤ wordBytes) :
    lowBytes bytes.length (wordOfBytes bytes) = bytes := by
  induction bytes with
  | nil => rfl
  | cons byte bytes ih =>
      simp only [List.length_cons, wordBytes] at h
      have hshort : bytes.length ≤ wordBytes := by unfold wordBytes; omega
      have hsize : (wordOfBytes bytes).toNat * 256 < UInt64.size := by
        have hlt := wordOfBytes_lt hshort
        rw [Nat.one_shiftLeft] at hlt
        have : 2 ^ (8 * bytes.length) ≤ 2 ^ 56 := Nat.pow_le_pow_right (by decide) (by omega)
        have : UInt64.size = 72057594037927936 * 256 := rfl
        omega
      have hword := toNat_wordOfBytes_cons byte bytes hsize
      have hbyte := byte.toNat_lt
      have hlow : (wordOfBytes (byte :: bytes)).toUInt8 = byte := by
        apply UInt8.toNat_inj.1
        rw [UInt64.toNat_toUInt8, hword]
        omega
      have hhigh : wordOfBytes (byte :: bytes) >>> 8 = wordOfBytes bytes := by
        apply UInt64.toNat_inj.1
        rw [UInt64.toNat_shiftRight, hword]
        simp only [UInt64.toNat_ofNat, Nat.reducePow, Nat.reduceMod, Nat.shiftRight_eq_div_pow]
        omega
      rw [List.length_cons, lowBytes, hlow, hhigh, ih hshort]

theorem bytesOfWord_wordOfBytes {bytes : List UInt8} (h : bytes.length = wordBytes) :
    bytesOfWord (wordOfBytes bytes) = bytes := by
  rw [bytesOfWord, ← h, lowBytes_wordOfBytes (Nat.le_of_eq h)]

end InterleavedCrc
