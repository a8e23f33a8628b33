import Mathlib.Data.Fin.Basic

/-! The bits of a word, tested and changed with shifted ones as C code does. -/

namespace Bits

def Has (w : UInt32) (i : Fin 32) : Prop := w &&& (1 <<< UInt32.ofNat i) ≠ 0

instance (w : UInt32) (i : Fin 32) : Decidable (Has w i) := inferInstanceAs (Decidable (_ ≠ _))

theorem toBitVec_one_shift (i : Fin 32) : (1 <<< UInt32.ofNat i : UInt32).toBitVec = BitVec.twoPow 32 i := by
  revert i
  decide

theorem twoPow_ne_zero : ∀ i : Fin 32, BitVec.twoPow 32 i ≠ 0#32 := by
  decide

theorem has_iff {w : UInt32} {i : Fin 32} : Has w i ↔ w.toBitVec.getLsbD i = true := by
  have hand : (w &&& (1 <<< UInt32.ofNat i)).toBitVec = if w.toBitVec.getLsbD i then BitVec.twoPow 32 i else 0#32 := by
    rw [UInt32.toBitVec_and, toBitVec_one_shift, BitVec.and_twoPow]
  rw [Has, Ne, ← UInt32.toBitVec_inj, hand]
  split
  · rename_i h
    exact ⟨fun _ => h, fun _ => twoPow_ne_zero i⟩
  · rename_i h
    exact ⟨fun h' => absurd rfl h', fun h' => absurd h' h⟩

@[simp] theorem not_has_zero (i : Fin 32) : ¬Has 0 i := fun h => h (UInt32.zero_and ..)

theorem exists_has {w : UInt32} (h : w ≠ 0) : ∃ i, Has w i := by
  by_contra hnone
  refine h (UInt32.toBitVec_inj.mp (BitVec.eq_of_getLsbD_eq fun i hi => ?_))
  have hbit : ¬w.toBitVec.getLsbD i = true := fun hbit => hnone ⟨⟨i, hi⟩, has_iff.mpr hbit⟩
  rw [Bool.eq_false_iff.mpr hbit]
  exact BitVec.getLsbD_zero.symm

theorem has_set {w : UInt32} {i j : Fin 32} : Has (w ||| (1 <<< UInt32.ofNat i)) j ↔ Has w j ∨ i = j := by
  rw [has_iff, has_iff, UInt32.toBitVec_or, toBitVec_one_shift, BitVec.getLsbD_or, Bool.or_eq_true, BitVec.getLsbD_twoPow]
  simp [Fin.ext_iff]

theorem has_clear {w : UInt32} {i j : Fin 32} : Has (w &&& ~~~(1 <<< UInt32.ofNat i)) j ↔ Has w j ∧ i ≠ j := by
  rw [has_iff, has_iff, UInt32.toBitVec_and, UInt32.toBitVec_not, toBitVec_one_shift, BitVec.getLsbD_and, Bool.and_eq_true,
    BitVec.getLsbD_not, BitVec.getLsbD_twoPow]
  simp [Fin.ext_iff]

theorem ext {w v : UInt32} (h : ∀ i, Has w i ↔ Has v i) : w = v := by
  refine UInt32.toBitVec_inj.mp (BitVec.eq_of_getLsbD_eq fun i hi => ?_)
  rw [Bool.eq_iff_iff]
  have hbit := h ⟨i, hi⟩
  rwa [has_iff, has_iff] at hbit

end Bits
