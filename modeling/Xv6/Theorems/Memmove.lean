import Xv6.Memmove

/-! `memmove` of the kernel moves bytes between regions that may overlap. The one of user programs copies upwards only, so a region
    cannot be moved to a place a little behind it. -/

namespace Xv6
open Function (update update_of_ne update_self)
variable {mem mem' : Mem} {dst src n : Nat}

/-- `n` bytes are at `dst` now, and all else is as before. -/
structure Moved (mem : Mem) (dst src n : Nat) (mem' : Mem) : Prop where
  copied : ∀ k < n, mem' (dst + k) = mem (src + k)
  rest : ∀ a, a < dst ∨ dst + n ≤ a → mem' a = mem a

theorem Moved.zero (mem : Mem) (dst src : Nat) : Moved mem dst src 0 mem := ⟨nofun, fun _ _ => rfl⟩

theorem Moved.cons (hfirst : Moved (update mem dst (mem src)) (dst + 1) (src + 1) n mem')
    (hsafe : ∀ k < n, src + 1 + k ≠ dst) : Moved mem dst src (n + 1) mem' := by
  refine ⟨fun k hk => ?_, fun a ha => ?_⟩
  · cases k with
    | zero => rw [Nat.add_zero, hfirst.rest _ (.inl (Nat.lt_succ_self dst)), update_self, Nat.add_zero]
    | succ k =>
      have hk : k < n := Nat.lt_of_succ_lt_succ hk
      rw [Nat.add_comm k, ← Nat.add_assoc, ← Nat.add_assoc, hfirst.copied k hk, update_of_ne (hsafe k hk)]
  · rw [hfirst.rest a (by omega), update_of_ne (by omega)]

theorem Moved.snoc (hlast : Moved (update mem (dst + n) (mem (src + n))) dst src n mem') (hlt : src < dst) :
    Moved mem dst src (n + 1) mem' := by
  refine ⟨fun k hk => ?_, fun a ha => ?_⟩
  · rcases Nat.lt_succ_iff_lt_or_eq.mp hk with hk | rfl
    · rw [hlast.copied k hk, update_of_ne (by omega)]
    · rw [hlast.rest _ (.inr (Nat.le_refl _)), update_self]
  · rw [hlast.rest a (by omega), update_of_ne (by omega)]

theorem copyUp_moved (hdst : dst + n ≤ 2 ^ 32) (hsrc : src + n ≤ 2 ^ 32) (hsafe : ¬(src < dst ∧ dst < src + n)) :
    Moved mem dst src n (copyUp n mem dst src) := by
  induction n generalizing mem dst src with
  | zero => exact .zero mem dst src
  | succ n ih =>
    rw [copyUp]
    refine .cons ?_ fun k hk heq => hsafe ⟨by omega, by omega⟩
    -- the pointers behind the last byte may be 0, and are not used
    rcases Nat.eq_zero_or_pos n with rfl | hn
    · exact .zero _ _ _
    · rw [Nat.mod_eq_of_lt (by omega), Nat.mod_eq_of_lt (by omega)]
      exact ih (by omega) (by omega) (by omega)

theorem copyDown_moved (hdst : dst + n ≤ 2 ^ 32) (hlt : src < dst) :
    Moved mem dst src n (copyDown n mem ((dst + n) % 2 ^ 32) ((src + n) % 2 ^ 32)) := by
  induction n generalizing mem with
  | zero => exact .zero mem dst src
  | succ n ih =>
    have hpred : ∀ p, p + (n + 1) ≤ 2 ^ 32 → before ((p + (n + 1)) % 2 ^ 32) = p + n := by
      intro p hp
      rw [before]
      split <;> omega
    rw [copyDown, hpred dst hdst, hpred src (by omega)]
    refine .snoc ?_ hlt
    have hmoved := @ih (update mem (dst + n) (mem (src + n))) (by omega)
    rwa [Nat.mod_eq_of_lt (by omega), Nat.mod_eq_of_lt (by omega)] at hmoved

theorem copyUp_below {a : Nat} (hdst : dst + n ≤ 2 ^ 32) (ha : a < dst) : copyUp n mem dst src a = mem a := by
  induction n generalizing mem dst src with
  | zero => rfl
  | succ n ih =>
    rw [copyUp]
    rcases Nat.eq_zero_or_pos n with rfl | hn
    · exact update_of_ne ha.ne _ _
    · rw [Nat.mod_eq_of_lt (show dst + 1 < 2 ^ 32 by omega), ih (by omega) (by omega), update_of_ne ha.ne]

theorem copyUp_repeats (hdst : dst + n ≤ 2 ^ 32) (hlt : src < dst) {k : Nat} (hk : k < n) :
    copyUp n mem dst src (dst + k) = copyUp n mem dst src (src + k) := by
  induction n generalizing mem dst src k with
  | zero => cases hk
  | succ n ih =>
    rw [copyUp]
    rcases Nat.eq_zero_or_pos n with rfl | hn
    · obtain rfl : k = 0 := Nat.lt_one_iff.mp hk
      exact (update_self ..).trans (update_of_ne hlt.ne _ _).symm
    · rw [Nat.mod_eq_of_lt (show dst + 1 < 2 ^ 32 by omega), Nat.mod_eq_of_lt (show src + 1 < 2 ^ 32 by omega)]
      cases k with
      | zero =>
        rw [copyUp_below (by omega) (show dst + 0 < dst + 1 by omega), copyUp_below (by omega) (show src + 0 < dst + 1 by omega)]
        exact (update_self ..).trans (update_of_ne hlt.ne _ _).symm
      | succ k =>
        rw [Nat.add_comm k, ← Nat.add_assoc, ← Nat.add_assoc]
        exact ih (by omega) (by omega) (Nat.lt_of_succ_lt_succ hk)

/-- With the destination inside the source, what is at `dst` was first at `src`, and comes to `dst + (dst - src)` too. -/
theorem not_moved_of_overlap (hdst : dst + n ≤ 2 ^ 32) (hlt : src < dst) (hin : dst < src + n) :
    ∃ mem, ¬Moved mem dst src n (copyUp n mem dst src) := by
  refine ⟨fun a => if a = src then 1 else 0, fun h => ?_⟩
  have hback : src + (dst - src) = dst := Nat.add_sub_cancel' hlt.le
  have hfirst := h.copied 0 (by omega)
  have hthen := h.copied (dst - src) (by omega)
  rw [copyUp_repeats hdst hlt (by omega), hback, if_neg hlt.ne'] at hthen
  rw [Nat.add_zero, Nat.add_zero, if_pos rfl, hthen] at hfirst
  exact absurd hfirst (by decide)

/-- The kernel's function is right for all regions, the other one, in every memory, if and only if the destination does not start
    inside the source. -/
theorem memmoves_move (dst src : Nat) :
    (∀ mem, ∀ n < 2 ^ 32, dst + n ≤ 2 ^ 32 → src + n ≤ 2 ^ 32 → Moved mem dst src n (memmove mem dst src n)) ∧
    ∀ n : Int, dst + n.toNat ≤ 2 ^ 32 → src + n.toNat ≤ 2 ^ 32 →
      ((∀ mem, Moved mem dst src n.toNat (Ulib.memmove mem dst src n)) ↔ ¬(src < dst ∧ dst < src + n.toNat)) := by
  refine ⟨fun mem n _ hdst hsrc => ?_, fun n hdst hsrc => ⟨fun hall hover => ?_, fun hsafe mem => copyUp_moved hdst hsrc hsafe⟩⟩
  · rw [memmove]
    split
    · rename_i hback
      exact copyDown_moved hdst hback.1
    · rename_i hback
      refine copyUp_moved hdst hsrc fun hover => hback ⟨hover.1, ?_⟩
      rw [Nat.mod_eq_of_lt (by omega)]
      exact hover.2
  · obtain ⟨mem, hmem⟩ := not_moved_of_overlap hdst hover.1 hover.2
    exact hmem (hall mem)

/-- Two bytes, moved by one in either direction. -/
theorem memmoves_move_two : Moved (fun a => .ofNat a) 1 0 2 (memmove (fun a => .ofNat a) 1 0 2) ∧
    Moved (fun a => .ofNat a) 0 1 2 (Ulib.memmove (fun a => .ofNat a) 0 1 2) :=
  ⟨(memmoves_move 1 0).1 _ 2 (by decide) (by decide) (by decide), ((memmoves_move 0 1).2 2 (by decide) (by decide)).mpr (by decide) _⟩

/-- Two bytes are moved by one: both become the first. -/
theorem memmove_smears : ¬Moved (fun a => if a = 0 then 1 else 0) 1 0 2 (Ulib.memmove (fun a => if a = 0 then 1 else 0) 1 0 2) := by
  intro h
  have hsecond := h.copied 1 (by decide)
  revert hsecond
  decide

end Xv6
