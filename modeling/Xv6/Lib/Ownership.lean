import Mathlib.Data.Finset.Card
import Mathlib.Data.Finset.Range
import Mathlib.Tactic

/-! Ownership of the cells of a store. Places hold pointers to cells, `0` being none; a map says which cells are
    in use. Every cell in use belongs to the reserved ones below `lo`, to exactly one place, or to the cells in
    flight: taken by an allocation that has not stored the pointer yet, or given up by a place and not yet
    freed. -/

universe u

namespace Ownership
open Function (update update_of_ne)
variable {π : Type u}

structure Owns (lo hi : Nat) (ptr : π → Nat) (used : Nat → Bool) (flight : Set Nat) : Prop where
  range : ∀ p, ptr p ≠ 0 → lo ≤ ptr p ∧ ptr p < hi
  inj : ∀ p q, ptr p ≠ 0 → ptr p = ptr q → p = q
  inFlight : ∀ b ∈ flight, lo ≤ b ∧ b < hi
  apart : ∀ p, ptr p ≠ 0 → ptr p ∉ flight
  used_iff : ∀ b, b < hi → (used b = true ↔ b < lo ∨ (∃ p, ptr p = b ∧ b ≠ 0) ∨ b ∈ flight)

variable {lo hi : Nat} {ptr ptr' : π → Nat} {used : Nat → Bool} {flight : Set Nat} {b : Nat}

namespace Owns

theorem not_used (h : Owns lo hi ptr used flight) (hb : b < hi) (hfree : used b = false) :
    lo ≤ b ∧ (∀ p, ptr p ≠ 0 → ptr p ≠ b) ∧ b ∉ flight := by
  have hnot : ¬(b < lo ∨ (∃ p, ptr p = b ∧ b ≠ 0) ∨ b ∈ flight) := fun hor => by
    rw [(h.used_iff b hb).mpr hor] at hfree
    cases hfree
  simp only [not_or, not_lt, not_exists, not_and] at hnot
  exact ⟨hnot.1, fun p hp heq => hnot.2.1 p heq (heq ▸ hp), hnot.2.2⟩

theorem alloc (h : Owns lo hi ptr used flight) (hb : b < hi) (hfree : used b = false) :
    Owns lo hi ptr (update used b true) (insert b flight) := by
  obtain ⟨hlo, hptr, -⟩ := h.not_used hb hfree
  refine ⟨h.range, h.inj, ?_, fun p hp => ?_, fun c hc => ?_⟩
  · rintro c (rfl | hc)
    · exact ⟨hlo, hb⟩
    · exact h.inFlight c hc
  · rintro (heq | hmem)
    · exact hptr p hp heq
    · exact h.apart p hp hmem
  · by_cases hcb : c = b
    · subst hcb
      simp
    · rw [update_of_ne hcb, h.used_iff c hc, Set.mem_insert_iff]
      simp [hcb]

theorem free (h : Owns lo hi ptr used flight) (hb : b ∈ flight) :
    Owns lo hi ptr (update used b false) (flight \ {b}) := by
  obtain ⟨hlo, hlt⟩ := h.inFlight b hb
  refine ⟨h.range, h.inj, fun c hc => h.inFlight c hc.1, fun p hp hmem => h.apart p hp hmem.1, fun c hc => ?_⟩
  by_cases hcb : c = b
  · subst hcb
    rw [Function.update_self]
    refine iff_of_false (by decide) ?_
    rintro (hlt' | ⟨p, hp, hc0⟩ | ⟨-, hne⟩)
    · omega
    · exact h.apart p (hp ▸ hc0) (hp ▸ hb)
    · exact hne rfl
  · rw [update_of_ne hcb, h.used_iff c hc]
    simp [hcb]

theorem gain {p₀ : π} (h : Owns lo hi ptr used (insert b flight)) (hb : b ∉ flight) (hlo : 0 < lo) (h₀ : ptr p₀ = 0)
    (hp₀ : ptr' p₀ = b) (hp : ∀ p, p ≠ p₀ → ptr' p = ptr p) : Owns lo hi ptr' used flight := by
  obtain ⟨hblo, hblt⟩ := h.inFlight b (Set.mem_insert b flight)
  have hne : ∀ p, ptr p ≠ 0 → ptr p ≠ b := fun p hp heq => h.apart p hp (heq ▸ Set.mem_insert b flight)
  -- Off the new place nothing has changed, and there the pointer is the one to `b`.
  have hcase : ∀ p, (p = p₀ ∧ ptr' p = b) ∨ (p ≠ p₀ ∧ ptr' p = ptr p) := fun p => by
    by_cases hpp : p = p₀
    · exact Or.inl ⟨hpp, hpp ▸ hp₀⟩
    · exact Or.inr ⟨hpp, hp p hpp⟩
  refine ⟨fun p hp' => ?_, fun p q hp' heq => ?_, fun c hc => h.inFlight c (Set.mem_insert_of_mem b hc),
    fun p hp' => ?_, fun c hc => ?_⟩
  · rcases hcase p with ⟨-, hpb⟩ | ⟨-, hpe⟩
    · exact hpb ▸ ⟨hblo, hblt⟩
    · rw [hpe] at hp' ⊢
      exact h.range p hp'
  · rcases hcase p with ⟨rfl, hpb⟩ | ⟨hpp, hpe⟩ <;> rcases hcase q with ⟨rfl, hqb⟩ | ⟨hqq, hqe⟩
    · rfl
    · rw [hpb, hqe] at heq
      exact absurd heq.symm (hne q (by omega))
    · rw [hpe, hqb] at heq
      exact absurd heq (hne p (hpe ▸ hp'))
    · rw [hpe, hqe] at heq
      exact h.inj p q (hpe ▸ hp') heq
  · rcases hcase p with ⟨-, hpb⟩ | ⟨-, hpe⟩
    · exact hpb ▸ hb
    · rw [hpe] at hp' ⊢
      exact fun hmem => h.apart p hp' (Set.mem_insert_of_mem b hmem)
  · rw [h.used_iff c hc]
    constructor
    · rintro (hlt | ⟨p, hpc, hc0⟩ | (rfl | hmem))
      · exact Or.inl hlt
      · refine Or.inr (Or.inl ⟨p, ?_, hc0⟩)
        rw [hp p fun heq => hc0 (by rw [← hpc, heq, h₀]), hpc]
      · exact Or.inr (Or.inl ⟨p₀, hp₀, by omega⟩)
      · exact Or.inr (Or.inr hmem)
    · rintro (hlt | ⟨p, hpc, hc0⟩ | hmem)
      · exact Or.inl hlt
      · rcases hcase p with ⟨-, hpb⟩ | ⟨-, hpe⟩
        · exact Or.inr (Or.inr (Or.inl (hpc.symm.trans hpb)))
        · exact Or.inr (Or.inl ⟨p, hpe ▸ hpc, hc0⟩)
      · exact Or.inr (Or.inr (Or.inr hmem))

theorem lose (h : Owns lo hi ptr used flight) (hp : ∀ p, ptr' p = ptr p ∨ ptr' p = 0) :
    Owns lo hi ptr' used (flight ∪ {b | b ≠ 0 ∧ ∃ p, ptr p = b ∧ ptr' p = 0}) := by
  have hkeep : ∀ p, ptr' p ≠ 0 → ptr' p = ptr p := fun p hp' => (hp p).resolve_right hp'
  refine ⟨fun p hp' => ?_, fun p q hp' heq => ?_, ?_, fun p hp' => ?_, fun c hc => ?_⟩
  · have hpe := hkeep p hp'
    rw [hpe] at hp' ⊢
    exact h.range p hp'
  · have hq' : ptr' q ≠ 0 := heq ▸ hp'
    rw [hkeep p hp', hkeep q hq'] at heq
    exact h.inj p q (hkeep p hp' ▸ hp') heq
  · rintro c (hc | ⟨hc0, p, rfl, -⟩)
    · exact h.inFlight c hc
    · exact h.range p hc0
  · have hpe := hkeep p hp'
    rintro (hmem | ⟨-, q, hq, hq0⟩)
    · rw [hpe] at hp' hmem
      exact h.apart p hp' hmem
    · rw [hpe] at hp' hq
      obtain rfl := h.inj p q hp' hq.symm
      exact hp' (hpe ▸ hq0)
  · rw [h.used_iff c hc]
    constructor
    · rintro (hlt | ⟨p, hpc, hc0⟩ | hmem)
      · exact Or.inl hlt
      · rcases hp p with hpe | hp0
        · exact Or.inr (Or.inl ⟨p, hpe.trans hpc, hc0⟩)
        · exact Or.inr (Or.inr (Or.inr ⟨hc0, p, hpc, hp0⟩))
      · exact Or.inr (Or.inr (Or.inl hmem))
    · rintro (hlt | ⟨p, hpc, hc0⟩ | hmem | ⟨hc0, p, hpc, -⟩)
      · exact Or.inl hlt
      · exact Or.inr (Or.inl ⟨p, (hkeep p (hpc ▸ hc0)) ▸ hpc, hc0⟩)
      · exact Or.inr (Or.inr hmem)
      · exact Or.inr (Or.inl ⟨p, hpc, hc0⟩)

end Owns

/-! ### Counting the free cells -/

/-- The number of cells below `hi` that are not in use. -/
def freeCount (hi : Nat) (used : Nat → Bool) : Nat := ((Finset.range hi).filter fun b => used b = false).card

theorem freeCount_alloc (hb : b < hi) (hfree : used b = false) :
    freeCount hi (update used b true) + 1 = freeCount hi used := by
  have hset : ((Finset.range hi).filter fun c => update used b true c = false) =
      ((Finset.range hi).filter fun c => used c = false).erase b := by
    ext c
    by_cases hcb : c = b
    · subst hcb
      simp
    · simp [hcb]
  have hmem : b ∈ (Finset.range hi).filter fun c => used c = false := by simp [hb, hfree]
  rw [freeCount, hset, Finset.card_erase_of_mem hmem]
  have hpos := Finset.card_pos.mpr ⟨b, hmem⟩
  exact Nat.sub_add_cancel hpos

theorem exists_free (h : 0 < freeCount hi used) : ∃ b, b < hi ∧ used b = false := by
  obtain ⟨b, hb⟩ := Finset.card_pos.mp h
  exact ⟨b, by simpa using hb⟩

/-! ### First fit -/

/-- The first `k` cells below `hi` that are not in use. -/
def firstFree (hi : Nat) (used : Nat → Bool) (k : Nat) : Finset Nat :=
  (Finset.range hi).filter fun c => used c = false ∧ freeCount c used < k

theorem eq_firstFree {taken : Finset Nat} (hfree : ∀ c ∈ taken, c < hi ∧ used c = false)
    (hfirst : ∀ c ∈ taken, ∀ d < c, used d = false → d ∈ taken) : taken = firstFree hi used taken.card := by
  ext c
  rw [firstFree, Finset.mem_filter, Finset.mem_range]
  constructor
  · intro hc
    refine ⟨(hfree c hc).1, (hfree c hc).2, ?_⟩
    refine Finset.card_lt_card (Finset.ssubset_iff_subset_ne.mpr ⟨fun d hd => ?_, fun heq => ?_⟩)
    · rw [Finset.mem_filter, Finset.mem_range] at hd
      exact hfirst c hc d hd.1 hd.2
    · rw [← heq, Finset.mem_filter, Finset.mem_range] at hc
      exact Nat.lt_irrefl c hc.1
  · rintro ⟨-, hused, hlt⟩
    by_contra hc
    refine Nat.not_le.mpr hlt (Finset.card_le_card fun d hd => ?_)
    rw [Finset.mem_filter, Finset.mem_range]
    refine ⟨?_, (hfree d hd).2⟩
    by_contra hge
    rcases Nat.lt_or_eq_of_le (Nat.not_lt.mp hge) with hcd | rfl
    · exact hc (hfirst d hd c hcd hused)
    · exact hc hd

end Ownership
