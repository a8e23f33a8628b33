import Mathlib.Data.List.Basic
import Mathlib.Logic.Function.Basic
import Mathlib.Order.Basic
import Mathlib.Order.Lattice

/-! A finite map that is kept in a row of slots. -/

/-- Slots that are free or have a key and a value; there are none from `size` on. -/
@[ext] structure Table (κ ν : Type) where
  size : Nat
  slot : Nat → Option (κ × ν)
  beyond : ∀ s, size ≤ s → slot s = none

namespace Table
variable {κ ν : Type} {t : Table κ ν} {s s' : Nat} {k : κ} {v : ν}

theorem lt_size (h : t.slot s = some (k, v)) : s < t.size := by
  by_contra hge
  rw [t.beyond s (Nat.not_lt.mp hge)] at h
  cases h

/-! ### Looking up a key -/

section Find
variable [DecidableEq κ]

/-- The first slot of the key. -/
def find (t : Table κ ν) (k : κ) : Option Nat := (List.range t.size).find? fun s => (t.slot s).any fun x => x.1 = k

def get (t : Table κ ν) (k : κ) : Option ν := (t.find k).bind fun s => (t.slot s).map Prod.snd

theorem find_eq_some (h : t.find k = some s) : (∃ v, t.slot s = some (k, v)) ∧ ∀ s' < s, ∀ v, t.slot s' ≠ some (k, v) := by
  obtain ⟨hs, -, hbefore⟩ := List.find?_range_eq_some.mp h
  refine ⟨?_, fun s' hs' v hv => ?_⟩
  · obtain ⟨⟨k', v⟩, hx, hk⟩ := (Option.any_eq_true _ _).mp hs
    obtain rfl : k' = k := by simpa using hk
    exact ⟨v, hx⟩
  · have := hbefore s' hs'
    simp [hv] at this

theorem find_eq_none (h : t.find k = none) (s : Nat) (v : ν) : t.slot s ≠ some (k, v) := by
  intro hv
  have := List.find?_range_eq_none.mp h s (lt_size hv)
  simp [hv] at this

theorem get_eq_none_iff : t.get k = none ↔ ∀ s v, t.slot s ≠ some (k, v) := by
  rw [get]
  cases h : t.find k with
  | none => exact iff_of_true rfl (find_eq_none h)
  | some s =>
    obtain ⟨⟨v, hv⟩, -⟩ := find_eq_some h
    rw [Option.bind_some, hv]
    exact iff_of_false (fun h => nomatch h) fun hall => hall s v hv

end Find

end Table
