import Mathlib.Data.List.Cycle
import Mathlib.Logic.Function.Iterate

/-! Circular lists, given by a function to the next element. -/

universe u

/-- From each element of `l` the next is the one behind it, and from the last it is the first. -/
def Cyclic {ι : Type u} (next : ι → ι) (l : List ι) : Prop := Cycle.Chain (fun x y => next x = y) (l : Cycle ι)

namespace Cyclic
variable {ι : Type u} {next next' : ι → ι} {l l₁ l₂ rest : List ι} {x y p q : ι}

theorem cons_iff : Cyclic next (x :: l) ↔ List.IsChain (fun x y => next x = y) (x :: (l ++ [x])) := Cycle.chain_coe_cons ..

theorem rotate (h : Cyclic next (l₁ ++ l₂)) : Cyclic next (l₂ ++ l₁) := by
  have heq : ((l₁ ++ l₂ : List ι) : Cycle ι) = (l₂ ++ l₁ : List ι) := Cycle.coe_eq_coe.mpr List.isRotated_append
  unfold Cyclic at h ⊢
  rwa [heq] at h

theorem chain_congr (h : List.IsChain (fun x y => next x = y) (l ++ [y])) (heq : ∀ x ∈ l, next' x = next x) :
    List.IsChain (fun x y => next' x = y) (l ++ [y]) := by
  induction l with
  | nil => exact .singleton y
  | cons x l ih =>
    rw [List.cons_append, List.isChain_cons] at h ⊢
    exact ⟨fun z hz => (heq x List.mem_cons_self).trans (h.1 z hz), ih h.2 fun z hz => heq z (List.mem_cons_of_mem x hz)⟩

theorem congr (h : Cyclic next l) (heq : ∀ x ∈ l, next' x = next x) : Cyclic next' l := by
  cases l with
  | nil => exact Cycle.Chain.nil _
  | cons x l =>
    rw [cons_iff, ← List.cons_append] at h ⊢
    exact chain_congr h heq

theorem remove (h : Cyclic next (p :: q :: rest)) (hp : next' p = next q) (heq : ∀ x ∈ rest, next' x = next x) :
    Cyclic next' (p :: rest) := by
  rw [cons_iff] at h ⊢
  rw [List.cons_append, List.isChain_cons_cons, List.isChain_cons] at h
  rw [List.isChain_cons]
  exact ⟨fun y hy => hp.trans (h.2.1 y hy), chain_congr h.2.2 heq⟩

theorem insert (h : Cyclic next (p :: rest)) (hp : next' p = q) (hq : next' q = next p) (heq : ∀ x ∈ rest, next' x = next x) :
    Cyclic next' (p :: q :: rest) := by
  rw [cons_iff, List.isChain_cons] at h
  rw [cons_iff, List.cons_append, List.isChain_cons_cons, List.isChain_cons]
  exact ⟨hp, fun y hy => hq.trans (h.1 y hy), chain_congr h.2 heq⟩

theorem iterate_of_chain (h : List.IsChain (fun x y => next x = y) (x :: (l ++ [y]))) : next^[l.length + 1] x = y := by
  induction l generalizing x with
  | nil =>
    rw [List.nil_append, List.isChain_cons_cons] at h
    exact h.1
  | cons z l ih =>
    rw [List.cons_append, List.isChain_cons_cons] at h
    rw [List.length_cons, Function.iterate_succ_apply, h.1]
    exact ih h.2

theorem reaches (h : Cyclic next l) (hx : x ∈ l) (hy : y ∈ l) : ∃ k < l.length, next^[k] x = y := by
  obtain ⟨l₁, l₂, rfl⟩ := List.append_of_mem hx
  have hrot := h.rotate
  rw [List.cons_append] at hrot
  by_cases hxy : y = x
  · exact ⟨0, List.length_pos_of_mem hx, hxy.symm⟩
  have hy : y ∈ l₂ ++ l₁ := by
    rcases List.mem_append.mp hy with hy | hy
    · exact List.mem_append_right _ hy
    · exact List.mem_append_left _ ((List.mem_cons.mp hy).resolve_left hxy)
  have hlen : (l₁ ++ x :: l₂).length = (l₂ ++ l₁).length + 1 := by
    rw [List.length_append, List.length_append, List.length_cons]
    omega
  generalize l₂ ++ l₁ = rest at hrot hy hlen
  obtain ⟨r₁, r₂, rfl⟩ := List.append_of_mem hy
  refine ⟨r₁.length + 1, ?_, iterate_of_chain ?_⟩
  · rw [hlen, List.length_append, List.length_cons]
    omega
  · rw [cons_iff, List.append_assoc, List.cons_append] at hrot
    exact (List.isChain_cons_split.mp hrot).1

theorem next_mem (h : Cyclic next l) (hx : x ∈ l) : next x ∈ l := by
  obtain ⟨l₁, l₂, rfl⟩ := List.append_of_mem hx
  have hrot := h.rotate
  rw [List.cons_append, cons_iff, List.isChain_cons] at hrot
  cases hl : l₂ ++ l₁ with
  | nil =>
    rw [hl] at hrot
    rw [hrot.1 x rfl]
    exact hx
  | cons y rest =>
    rw [hl] at hrot
    rw [hrot.1 y rfl]
    have hy : y ∈ l₂ ++ l₁ := hl ▸ List.mem_cons_self
    rcases List.mem_append.mp hy with hy | hy
    · exact List.mem_append_right _ (List.mem_cons_of_mem x hy)
    · exact List.mem_append_left _ hy

theorem next_of_sorted [LinearOrder ι] (h : Cyclic next l) (hl : l.Pairwise (· < ·)) (hx : x ∈ l) :
    x < next x ∧ (∀ y ∈ l, y ≤ x ∨ next x ≤ y) ∨ (∀ y ∈ l, y ≤ x) ∧ ∀ y ∈ l, next x ≤ y := by
  obtain ⟨l₁, l₂, rfl⟩ := List.append_of_mem hx
  obtain ⟨hl₁, hl₂, hcross⟩ := List.pairwise_append.mp hl
  have hbefore : ∀ y ∈ l₁, y ≤ x := fun y hy => (hcross y hy x List.mem_cons_self).le
  have hrot := h.rotate
  rw [List.cons_append, cons_iff, List.isChain_cons] at hrot
  cases l₂ with
  | cons z l₂ =>
    left
    obtain rfl : next x = z := hrot.1 z rfl
    obtain ⟨hx', hl₂⟩ := List.pairwise_cons.mp hl₂
    refine ⟨hx' _ List.mem_cons_self, fun y hy => ?_⟩
    rcases List.mem_append.mp hy with hy | hy
    · exact .inl (hbefore y hy)
    · rcases List.mem_cons.mp hy with rfl | hy
      · exact .inl le_rfl
      · rcases List.mem_cons.mp hy with rfl | hy
        · exact .inr le_rfl
        · exact .inr ((List.pairwise_cons.mp hl₂).1 y hy).le
  | nil =>
    right
    refine ⟨fun y hy => ?_, ?_⟩
    · rcases List.mem_append.mp hy with hy | hy
      · exact hbefore y hy
      · rw [List.mem_singleton.mp hy]
    · cases l₁ with
      | nil =>
        obtain heq : next x = x := hrot.1 x rfl
        intro y hy
        rw [heq, List.mem_singleton.mp hy]
      | cons z l₁ =>
        obtain rfl : next x = z := hrot.1 z rfl
        intro y hy
        rcases List.mem_cons.mp hy with rfl | hy
        · exact le_rfl
        · exact ((List.pairwise_cons.mp hl).1 y hy).le

end Cyclic
