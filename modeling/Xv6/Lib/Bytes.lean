import Mathlib.Tactic

/-! Fixed-size byte buffers and the little-endian words in them. A buffer of `n` bytes is a function on
    `Fin n`; offsets and word values are natural numbers, a word of `k` bytes being taken modulo `2^(8k)`. -/

namespace Bytes

abbrev Buffer (n : Nat) := Fin n → UInt8

namespace Buffer
variable {n : Nat}

def zero : Buffer n := fun _ => 0

/-- The byte at an offset; offsets outside the buffer read as 0. -/
def byte (b : Buffer n) (o : Nat) : UInt8 := if h : o < n then b ⟨o, h⟩ else 0

def setBytes (b : Buffer n) (o : Nat) (bs : List UInt8) : Buffer n := fun i =>
  if o ≤ i.val ∧ i.val < o + bs.length then bs.getD (i.val - o) 0 else b i

def getBytes (b : Buffer n) (o k : Nat) : List UInt8 := (List.range k).map fun j => b.byte (o + j)

@[simp] theorem byte_zero (o : Nat) : (zero : Buffer n).byte o = 0 := by
  unfold byte zero
  split <;> rfl

theorem byte_setBytes (b : Buffer n) (o : Nat) (bs : List UInt8) (i : Nat) :
    (b.setBytes o bs).byte i =
      if i < n ∧ o ≤ i ∧ i < o + bs.length then bs.getD (i - o) 0 else b.byte i := by
  unfold byte setBytes
  by_cases hi : i < n <;> simp [hi]

@[simp] theorem length_getBytes (b : Buffer n) (o k : Nat) : (b.getBytes o k).length = k := by
  simp [getBytes]

theorem getBytes_add (b : Buffer n) (o k k' : Nat) : b.getBytes o (k + k') = b.getBytes o k ++ b.getBytes (o + k) k' := by
  simp [getBytes, List.range_add, Nat.add_assoc]

theorem getBytes_setBytes_same (b : Buffer n) (o : Nat) (bs : List UInt8) (h : o + bs.length ≤ n) :
    (b.setBytes o bs).getBytes o bs.length = bs := by
  apply List.ext_getElem
  · simp
  · intro j hj _
    have hj' : j < bs.length := by simpa using hj
    have hcond : o + j < n ∧ o ≤ o + j ∧ o + j < o + bs.length := by omega
    simp [getBytes, byte_setBytes, hcond, hj']

theorem getBytes_setBytes_disjoint (b : Buffer n) {o o' k : Nat} {bs : List UInt8}
    (h : o' + k ≤ o ∨ o + bs.length ≤ o') : (b.setBytes o bs).getBytes o' k = b.getBytes o' k := by
  unfold getBytes
  apply List.map_congr_left
  intro j hj
  have hj' : j < k := by simpa using hj
  rw [byte_setBytes, if_neg]
  omega

end Buffer

/-! ### Little-endian words -/

/-- The value of little-endian bytes. -/
def ofLe : List UInt8 → Nat
  | [] => 0
  | x :: xs => x.toNat + 256 * ofLe xs

/-- The `k` little-endian bytes of `v`. -/
def toLe : Nat → Nat → List UInt8
  | 0, _ => []
  | k + 1, v => UInt8.ofNat v :: toLe k (v / 256)

@[simp] theorem length_toLe (k v : Nat) : (toLe k v).length = k := by
  induction k generalizing v with
  | zero => rfl
  | succ k ih => simp [toLe, ih]

theorem ofLe_toLe (k v : Nat) : ofLe (toLe k v) = v % 256 ^ k := by
  induction k generalizing v with
  | zero => simp [toLe, ofLe, Nat.mod_one]
  | succ k ih =>
    have hbyte : (UInt8.ofNat v).toNat = v % 256 := by rw [UInt8.toNat_ofNat']
    rw [toLe, ofLe, ih, hbyte, Nat.pow_succ, Nat.mul_comm (256 ^ k) 256, Nat.mod_mul]

namespace Buffer
variable {n : Nat}

def word (k : Nat) (b : Buffer n) (o : Nat) : Nat := ofLe (b.getBytes o k)

def setWord (k : Nat) (b : Buffer n) (o v : Nat) : Buffer n := b.setBytes o (toLe k v)

theorem word_setWord_same {k : Nat} (b : Buffer n) {o : Nat} (v : Nat) (h : o + k ≤ n) :
    (b.setWord k o v).word k o = v % 256 ^ k := by
  have := b.getBytes_setBytes_same o (toLe k v) (by simpa using h)
  rw [length_toLe] at this
  rw [word, setWord, this, ofLe_toLe]

theorem word_setBytes_disjoint {k : Nat} (b : Buffer n) {o o' : Nat} {bs : List UInt8}
    (h : o' + k ≤ o ∨ o + bs.length ≤ o') : (b.setBytes o bs).word k o' = b.word k o' := by
  rw [word, getBytes_setBytes_disjoint b h, word]

theorem word_setWord_disjoint {k k' : Nat} (b : Buffer n) {o o' : Nat} (v : Nat)
    (h : o' + k' ≤ o ∨ o + k ≤ o') : (b.setWord k o v).word k' o' = b.word k' o' :=
  word_setBytes_disjoint b (by simpa using h)

@[simp] theorem word_zero (k o : Nat) : (zero : Buffer n).word k o = 0 := by
  have hzero : ∀ j, ofLe (List.replicate j 0) = 0 := by
    intro j
    induction j with
    | zero => rfl
    | succ j ih => simp [List.replicate_succ, ofLe, ih]
  simp [word, getBytes, hzero]

def setWords (k : Nat) (b : Buffer n) : Nat → List Nat → Buffer n
  | _, [] => b
  | o, v :: vs => setWords k (b.setWord k o v) (o + k) vs

theorem word_setWords_disjoint {k k' : Nat} (vs : List Nat) : ∀ (b : Buffer n) (o : Nat) {o' : Nat},
    o' + k' ≤ o ∨ o + k * vs.length ≤ o' → (b.setWords k o vs).word k' o' = b.word k' o' := by
  induction vs with
  | nil =>
    intro b o o' _
    rfl
  | cons v vs ih =>
    intro b o o' h
    rw [List.length_cons, Nat.mul_succ] at h
    rw [setWords, ih _ _ (by omega), word_setWord_disjoint _ _ (by omega)]

theorem word_setWords {k : Nat} (vs : List Nat) : ∀ (b : Buffer n) (o : Nat) {i : Nat}, o + k * vs.length ≤ n →
    i < vs.length → (b.setWords k o vs).word k (o + k * i) = vs.getD i 0 % 256 ^ k := by
  induction vs with
  | nil =>
    intro b o i _ hi
    simp at hi
  | cons v vs ih =>
    intro b o i hfit hi
    rw [List.length_cons, Nat.mul_succ] at hfit
    rw [setWords]
    cases i with
    | zero =>
      rw [word_setWords_disjoint _ _ _ (by omega), Nat.mul_zero, Nat.add_zero, word_setWord_same _ _ (by omega)]
      rfl
    | succ i =>
      have := ih (b.setWord k o v) (o + k) (i := i) (by omega) (by simpa using hi)
      rw [Nat.mul_succ, show o + (k * i + k) = o + k + k * i by omega, this]
      rfl

theorem byte_setBytes_same (b : Buffer n) (o : Nat) (x : UInt8) (h : o < n) : (b.setBytes o [x]).byte o = x := by
  rw [byte_setBytes, if_pos ⟨h, Nat.le_refl o, by simp⟩]
  simp

theorem byte_setBytes_of_ne (b : Buffer n) {o o' : Nat} (x : UInt8) (h : o' ≠ o) :
    (b.setBytes o [x]).byte o' = b.byte o' := by
  rw [byte_setBytes, if_neg]
  simp only [List.length_singleton]
  omega

end Buffer

/-! ### Bits -/

theorem getLsbD_one_shl (k i : Nat) : (1#8 <<< k).getLsbD i = (decide (i < 8) && decide (i = k)) := by
  rw [BitVec.getLsbD_shiftLeft, BitVec.getLsbD_one]
  by_cases hi : i < 8
  · by_cases h : i = k
    · subst h
      simp [hi]
    · simp [hi, h]
      omega
  · simp [hi]

/-- Bit `k` of a row of bytes, in its byte. -/
def mask (k : Nat) : UInt8 := 1 <<< UInt8.ofNat (k % 8)

theorem getLsbD_mask (k i : Nat) : (mask k).toBitVec.getLsbD i = (decide (i < 8) && decide (i = k % 8)) := by
  have : (mask k).toBitVec = 1#8 <<< (k % 8) := by simp [mask, UInt8.toBitVec_shiftLeft]
  rw [this, getLsbD_one_shl]

theorem and_mask_eq_zero (x : UInt8) (k : Nat) : x &&& mask k = 0 ↔ x.toBitVec.getLsbD (k % 8) = false := by
  rw [← UInt8.toBitVec_inj, UInt8.toBitVec_and]
  constructor
  · intro h
    have hbit : (x.toBitVec &&& (mask k).toBitVec).getLsbD (k % 8) = (0 : UInt8).toBitVec.getLsbD (k % 8) := by rw [h]
    rw [BitVec.getLsbD_and, getLsbD_mask] at hbit
    simpa [Nat.mod_lt k] using hbit
  · intro h
    apply BitVec.eq_of_getLsbD_eq
    intro i hi
    rw [BitVec.getLsbD_and, getLsbD_mask]
    by_cases hik : i = k % 8
    · subst hik
      simp [h]
    · simp [hik]

namespace Buffer
variable {n : Nat}

def bit (b : Buffer n) (k : Nat) : Bool := b.byte (k / 8) &&& mask k ≠ 0

def setBit (b : Buffer n) (k : Nat) : Buffer n := b.setBytes (k / 8) [b.byte (k / 8) ||| mask k]

def clearBit (b : Buffer n) (k : Nat) : Buffer n := b.setBytes (k / 8) [b.byte (k / 8) &&& ~~~mask k]

theorem bit_eq_getLsbD (b : Buffer n) (k : Nat) : b.bit k = (b.byte (k / 8)).toBitVec.getLsbD (k % 8) := by
  have := and_mask_eq_zero (b.byte (k / 8)) k
  cases h : (b.byte (k / 8)).toBitVec.getLsbD (k % 8)
  · simpa [bit] using this.mpr h
  · simp [bit, this, h]

theorem bit_setBit (b : Buffer n) {k : Nat} (j : Nat) (hk : k / 8 < n) :
    (b.setBit k).bit j = (decide (j = k) || b.bit j) := by
  rw [bit_eq_getLsbD, bit_eq_getLsbD, setBit]
  by_cases hjk : j / 8 = k / 8
  · rw [hjk, byte_setBytes_same _ _ _ hk, UInt8.toBitVec_or, BitVec.getLsbD_or, getLsbD_mask]
    have hlt : j % 8 < 8 := Nat.mod_lt j (by decide)
    have hiff : j % 8 = k % 8 ↔ j = k := by omega
    simp [hlt, hiff, Bool.or_comm]
  · have hne : j ≠ k := fun h => hjk (by rw [h])
    rw [byte_setBytes_of_ne _ _ hjk]
    simp [hne]

theorem bit_clearBit (b : Buffer n) {k : Nat} (j : Nat) (hk : k / 8 < n) :
    (b.clearBit k).bit j = (decide (j ≠ k) && b.bit j) := by
  rw [bit_eq_getLsbD, bit_eq_getLsbD, clearBit]
  by_cases hjk : j / 8 = k / 8
  · rw [hjk, byte_setBytes_same _ _ _ hk, UInt8.toBitVec_and, UInt8.toBitVec_not, BitVec.getLsbD_and, BitVec.getLsbD_not,
      getLsbD_mask]
    have hlt : j % 8 < 8 := Nat.mod_lt j (by decide)
    have hiff : j % 8 = k % 8 ↔ j = k := by omega
    simp [hlt, hiff, Bool.and_comm]
  · have hne : j ≠ k := fun h => hjk (by rw [h])
    rw [byte_setBytes_of_ne _ _ hjk]
    simp [hne]

end Buffer
end Bytes
