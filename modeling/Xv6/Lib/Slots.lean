import Mathlib.Data.Finset.Range
import Mathlib.Data.Finset.Basic
import Mathlib.Data.Multiset.Filter
import Mathlib.Data.Multiset.AddSub
import Mathlib.Data.Finset.Card

/-! A table whose slots each hold one thing or nothing, and what all its slots hold together. -/

namespace Slots
open Function (update update_self)
variable {ι β : Type} {s : Finset ι} {f g : ι → Option β} {i j : ι} {b : β}

/-- What the slots in `s` hold. -/
def held (s : Finset ι) (f : ι → Option β) : Multiset β := s.val.filterMap f

theorem mem_held : b ∈ held s f ↔ ∃ i ∈ s, f i = some b := Multiset.mem_filterMap f s.val

theorem held_congr (h : ∀ i ∈ s, f i = g i) : held s f = held s g := by
  obtain ⟨l, hl⟩ := Quot.exists_rep s.val
  have hmem : ∀ i ∈ l, f i = g i := fun i hi => h i (by
    rw [← Finset.mem_val, ← hl]
    exact hi)
  rw [held, held, ← hl]
  exact congrArg _ (List.filterMap_congr hmem)

theorem held_eq_zero (h : ∀ i ∈ s, f i = none) : held s f = 0 := by
  refine Multiset.eq_zero_of_forall_notMem fun b hb => ?_
  obtain ⟨i, hi, hf⟩ := mem_held.mp hb
  rw [h i hi] at hf
  cases hf

variable [DecidableEq ι]

theorem held_erase (hi : i ∈ s) (h : f i = some b) : held s f = b ::ₘ held (s.erase i) f := by
  conv_lhs => rw [← Finset.insert_erase hi, held, Finset.insert_val_of_notMem (Finset.notMem_erase i s)]
  rw [Multiset.filterMap_cons_some _ _ _ h, held]

theorem held_erase_of_none (h : f i = none) : held (s.erase i) f = held s f := by
  by_cases hi : i ∈ s
  · conv_rhs => rw [← Finset.insert_erase hi, held, Finset.insert_val_of_notMem (Finset.notMem_erase i s)]
    rw [Multiset.filterMap_cons_none _ _ h, held]
  · rw [Finset.erase_eq_of_notMem hi]

theorem held_update_erase (o : Option β) : held (s.erase i) (update f i o) = held (s.erase i) f :=
  held_congr fun _ hj => Function.update_of_ne (Finset.ne_of_mem_erase hj) o f

theorem card_held {t : Finset ι} (h : ∀ i, i ∈ t ↔ i ∈ s ∧ f i ≠ none) : (held s f).card = t.card := by
  induction t using Finset.induction_on generalizing s with
  | empty =>
    rw [held_eq_zero fun i hi => by_contra fun hn => Finset.notMem_empty i ((h i).mpr ⟨hi, hn⟩)]
    rfl
  | insert i t hnot ih =>
    obtain ⟨hi, hne⟩ := (h i).mp (Finset.mem_insert_self i t)
    obtain ⟨b, hb⟩ := Option.ne_none_iff_exists'.mp hne
    rw [held_erase hi hb, Multiset.card_cons, Finset.card_insert_of_notMem hnot, ih fun j => ?_]
    rw [Finset.mem_erase, and_assoc, ← h j, Finset.mem_insert]
    constructor
    · exact fun hj => ⟨fun hji => hnot (hji ▸ hj), .inr hj⟩
    · exact fun ⟨hji, hj⟩ => hj.resolve_left hji

theorem held_fill (hi : i ∈ s) (h : f i = none) : held s (update f i (some b)) = b ::ₘ held s f := by
  rw [held_erase hi (update_self i (some b) f), held_update_erase, held_erase_of_none h]

theorem held_clear (hi : i ∈ s) (h : f i = some b) : held s f = b ::ₘ held s (update f i none) := by
  rw [held_erase hi h, ← held_erase_of_none (s := s) (update_self i none f), held_update_erase]

omit [DecidableEq ι] in
theorem held_split (P : ι → Prop) [DecidablePred P] :
    held s f = held (s.filter P) f + held (s.filter fun i => ¬P i) f := by
  rw [held, held, held, Finset.filter_val, Finset.filter_val, ← Multiset.filterMap_add, Multiset.filter_add_not]

theorem eq_of_nodup (hn : (held s f).Nodup) (hi : i ∈ s) (hj : j ∈ s) (hfi : f i = some b) (hfj : f j = some b) :
    i = j := by
  by_contra hne
  rw [held_erase hi hfi, Multiset.nodup_cons] at hn
  exact hn.1 (mem_held.mpr ⟨j, Finset.mem_erase.mpr ⟨Ne.symm hne, hj⟩, hfj⟩)

end Slots
