import Mathlib.Data.Nat.ModEq
import Mathlib.Data.List.Range
import Mathlib.Logic.Function.Basic
import Mathlib.Tactic.Linarith

/-! A ring of cells with a read and a write counter of 32 bits that only ever go up, and wrap around. The queue in it is
    right across the wrap if the number of cells divides `2 ^ 32`. -/

namespace Ring
variable {α : Type*} {n : Nat} [NeZero n] {data : Fin n → α} {r w : UInt32}

def cell (n : Nat) [NeZero n] (x : UInt32) : Fin n := Fin.ofNat n x.toNat

/-- The elements between the counters, the oldest first. -/
def contents (data : Fin n → α) (r w : UInt32) : List α :=
  (List.range (w - r).toNat).map fun k => data (cell n (r + .ofNat k))

@[simp] theorem length_contents : (contents data r w).length = (w - r).toNat := by
  rw [contents, List.length_map, List.length_range]

theorem cell_add (hn : n ∣ 2 ^ 32) (k : Nat) : (cell n (r + .ofNat k)).val = (r.toNat + k) % n := by
  show (r + .ofNat k).toNat % n = _
  rw [UInt32.toNat_add, UInt32.toNat_ofNat', Nat.mod_mod_of_dvd _ hn, Nat.add_mod, Nat.mod_mod_of_dvd _ hn, ← Nat.add_mod]

theorem toNat_sub_add (k : Nat) (hk : k = (w - r).toNat) : r + .ofNat k = w := by
  subst hk
  rw [UInt32.ofNat_toNat]
  rw [UInt32.add_comm]
  exact UInt32.sub_add_cancel w r

theorem cell_ne (hn : n ∣ 2 ^ 32) {j k : Nat} (hjk : j < k) (hk : k < j + n) : cell n (r + .ofNat j) ≠ cell n (r + .ofNat k) := by
  intro h
  have h := congrArg Fin.val h
  rw [cell_add hn, cell_add hn] at h
  have hmod : (r.toNat + j) ≡ (r.toNat + k) [MOD n] := h
  have hdvd := (Nat.modEq_iff_dvd' (by omega)).mp hmod
  exact absurd (Nat.le_of_dvd (by omega) hdvd) (by omega)

theorem contents_update (hn : n ∣ 2 ^ 32) (hroom : (w - r).toNat < n) (a : α) :
    contents (Function.update data (cell n w) a) r w = contents data r w := by
  refine List.map_congr_left fun k hk => ?_
  have hk := List.mem_range.mp hk
  rw [Function.update_of_ne]
  conv_rhs => rw [← toNat_sub_add (w - r).toNat rfl]
  exact cell_ne hn hk (by omega)

theorem contents_push (hn : n ∣ 2 ^ 32) (hlt : n < 2 ^ 32) (hroom : (w - r).toNat < n) (a : α) :
    contents (Function.update data (cell n w) a) r (w + 1) = contents data r w ++ [a] := by
  have hlen : (w + 1 - r).toNat = (w - r).toNat + 1 := by
    rw [UInt32.toNat_sub] at hroom ⊢
    rw [UInt32.toNat_sub, UInt32.toNat_add, UInt32.toNat_one]
    have := r.toNat_lt
    have := w.toNat_lt
    omega
  rw [contents, hlen, List.range_succ, List.map_append, List.map_singleton, toNat_sub_add _ rfl, Function.update_self,
    ← contents_update hn hroom a, contents]

theorem contents_pop (hne : r ≠ w) : contents data r w = data (cell n r) :: contents data (r + 1) w := by
  have hlen : (w - r).toNat = (w - (r + 1)).toNat + 1 := by
    have hnat : r.toNat ≠ w.toNat := fun h => hne (UInt32.toNat.inj h)
    rw [UInt32.toNat_sub, UInt32.toNat_sub, UInt32.toNat_add, UInt32.toNat_one]
    have := r.toNat_lt
    have := w.toNat_lt
    omega
  rw [contents, hlen, List.range_succ_eq_map, List.map_cons, List.map_map, contents]
  congr 1
  · exact congrArg (fun x => data (cell n x)) (UInt32.add_zero r)
  · refine List.map_congr_left fun k _ => ?_
    show data (cell n (r + .ofNat (k + 1))) = _
    rw [UInt32.ofNat_add, UInt32.add_comm (UInt32.ofNat k), ← UInt32.add_assoc]
    rfl

theorem contents_pop_back (hne : r ≠ w) : contents data r w = contents data r (w - 1) ++ [data (cell n (w - 1))] := by
  have hlen : (w - r).toNat = (w - 1 - r).toNat + 1 := by
    have hnat : r.toNat ≠ w.toNat := fun h => hne (UInt32.toNat.inj h)
    rw [UInt32.toNat_sub, UInt32.toNat_sub, UInt32.toNat_sub, UInt32.toNat_one]
    have := r.toNat_lt
    have := w.toNat_lt
    omega
  rw [contents, hlen, List.range_succ, List.map_append, List.map_singleton, toNat_sub_add _ rfl, contents]

theorem add_ofNat_inj {j k : Nat} (hj : j < 2 ^ 32) (hk : k < 2 ^ 32) : r + .ofNat j = r + .ofNat k ↔ j = k := by
  constructor
  · intro h
    have h := congrArg UInt32.toNat (UInt32.add_right_inj _ |>.mp h)
    rwa [UInt32.toNat_ofNat_of_lt' hj, UInt32.toNat_ofNat_of_lt' hk] at h
  · intro h
    rw [h]

@[simp] theorem contents_self : contents data r r = [] := by
  rw [contents, UInt32.sub_self]
  rfl

end Ring
