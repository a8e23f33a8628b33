import Mathlib.Data.List.Induction
import Mathlib.Data.List.Nodup
import Mathlib.Logic.Function.Basic

/-! Circular doubly linked lists with a head, as two functions on nodes. A node is an element, or the head, which is
    `none`. -/

universe u

structure Links (ι : Type u) where
  next : Option ι → Option ι
  prev : Option ι → Option ι

namespace Links
open Function (update update_apply)
variable {ι : Type u} {L L' : Links ι} {a b c : Option ι} {i : ι} {l l₁ l₂ : List ι}

/-- The way from node `a` to node `b` is through the elements of `l`, and back. -/
def Seg (L : Links ι) : Option ι → List ι → Option ι → Prop
  | a, [], b => L.next a = b ∧ L.prev b = a
  | a, i :: l, b => L.next a = some i ∧ L.prev (some i) = a ∧ Seg L (some i) l b

/-- From the head the way is through `l` and back to the head. -/
def Spells (L : Links ι) (l : List ι) : Prop := L.Seg none l none

theorem seg_append : L.Seg a (l₁ ++ i :: l₂) b ↔ L.Seg a l₁ (some i) ∧ L.Seg (some i) l₂ b := by
  induction l₁ generalizing a with
  | nil => simp only [List.nil_append, Seg, and_assoc]
  | cons j l₁ ih => simp only [List.cons_append, Seg, ih, and_assoc]

theorem Seg.congr (h : L.Seg a l b) (hnext : ∀ x, x = a ∨ (∃ i ∈ l, x = some i) → L'.next x = L.next x)
    (hprev : ∀ x, x = b ∨ (∃ i ∈ l, x = some i) → L'.prev x = L.prev x) : L'.Seg a l b := by
  induction l generalizing a with
  | nil => exact ⟨(hnext a (Or.inl rfl)).trans h.1, (hprev b (Or.inl rfl)).trans h.2⟩
  | cons i l ih =>
    obtain ⟨hn, hp, hseg⟩ := h
    have hi : ∃ j ∈ i :: l, some i = some j := ⟨i, List.mem_cons_self, rfl⟩
    refine ⟨(hnext a (Or.inl rfl)).trans hn, (hprev _ (Or.inr hi)).trans hp, ih hseg (fun x hx => ?_) fun x hx => ?_⟩
    · rcases hx with rfl | ⟨j, hj, rfl⟩
      · exact hnext _ (Or.inr hi)
      · exact hnext _ (Or.inr ⟨j, List.mem_cons_of_mem i hj, rfl⟩)
    · rcases hx with rfl | ⟨j, hj, rfl⟩
      · exact hprev _ (Or.inl rfl)
      · exact hprev _ (Or.inr ⟨j, List.mem_cons_of_mem i hj, rfl⟩)

theorem Seg.prev_end (h : L.Seg a l b) : L.prev b = a ∧ l = [] ∨ ∃ i ∈ l, L.prev b = some i := by
  induction l generalizing a with
  | nil => exact Or.inl ⟨h.2, rfl⟩
  | cons i l ih =>
    rcases ih h.2.2 with ⟨hp, -⟩ | ⟨j, hj, hp⟩
    · exact Or.inr ⟨i, List.mem_cons_self, hp⟩
    · exact Or.inr ⟨j, List.mem_cons_of_mem i hj, hp⟩

theorem Seg.next_start (h : L.Seg a l b) : L.next a = b ∧ l = [] ∨ ∃ i ∈ l, L.next a = some i := by
  cases l with
  | nil => exact Or.inl ⟨h.1, rfl⟩
  | cons i l => exact Or.inr ⟨i, List.mem_cons_self, h.1⟩

/-! ### Changing the list -/

section Change
variable [DecidableEq ι]

def setNext (L : Links ι) (a b : Option ι) : Links ι := { L with next := update L.next a b }

def setPrev (L : Links ι) (a b : Option ι) : Links ι := { L with prev := update L.prev a b }

def empty : Links ι := ⟨fun _ => none, fun _ => none⟩

def unlink (L : Links ι) (i : ι) : Links ι :=
  let L := L.setPrev (L.next (some i)) (L.prev (some i))
  L.setNext (L.prev (some i)) (L.next (some i))

def push (L : Links ι) (i : ι) : Links ι :=
  let L := L.setNext (some i) (L.next none)
  let L := L.setPrev (some i) none
  let L := L.setPrev (L.next none) (some i)
  L.setNext none (some i)

omit [DecidableEq ι] in
theorem spells_empty : (empty : Links ι).Spells [] := ⟨rfl, rfl⟩

theorem push_next (x : Option ι) :
    (L.push i).next x = if x = none then some i else if x = some i then L.next none else L.next x := by
  simp [push, setNext, setPrev, update_apply]

theorem push_prev (x : Option ι) :
    (L.push i).prev x = if x = L.next none then some i else if x = some i then none else L.prev x := by
  simp [push, setNext, setPrev, update_apply]

theorem unlink_next (h : L.next (some i) ≠ some i) (x : Option ι) :
    (L.unlink i).next x = if x = L.prev (some i) then L.next (some i) else L.next x := by
  simp [unlink, setNext, setPrev, update_apply, h.symm]

theorem unlink_prev (x : Option ι) :
    (L.unlink i).prev x = if x = L.next (some i) then L.prev (some i) else L.prev x := by
  simp [unlink, setNext, setPrev, update_apply]

theorem Spells.push (h : L.Spells l) (hi : i ∉ l) (hl : l.Nodup) : (L.push i).Spells (i :: l) := by
  have hne : ∀ j ∈ l, (some j : Option ι) ≠ some i := fun j hj heq => hi (Option.some.inj heq ▸ hj)
  cases l with
  | nil => simp [Spells, Seg, push_next, push_prev, h.1]
  | cons j l =>
    obtain ⟨hn, hp, hseg⟩ := h
    have hji : (some j : Option ι) ≠ some i := hne j List.mem_cons_self
    refine ⟨by simp [push_next], by simp [push_prev, hn, hji.symm], by simp [push_next, hn], by simp [push_prev, hn], ?_⟩
    refine hseg.congr (fun x hx => ?_) fun x hx => ?_
    · rw [push_next]
      rcases hx with rfl | ⟨k, hk, rfl⟩
      · simp [hji]
      · simp [hne k (List.mem_cons_of_mem j hk)]
    · rw [push_prev, hn]
      rcases hx with rfl | ⟨k, hk, rfl⟩
      · simp
      · have hkj : k ≠ j := fun heq => (List.nodup_cons.mp hl).1 (heq ▸ hk)
        simp [hkj, hne k (List.mem_cons_of_mem j hk)]

theorem Seg.unlink (h : L.Seg a (l₁ ++ i :: l₂) b) (hl : (l₁ ++ i :: l₂).Nodup) (ha : ∀ j ∈ l₁ ++ i :: l₂, a ≠ some j)
    (hb : ∀ j ∈ l₁ ++ i :: l₂, b ≠ some j) : (L.unlink i).Seg a (l₁ ++ l₂) b := by
  obtain ⟨-, hseg⟩ := seg_append.mp h
  have hi : i ∉ l₂ := (List.nodup_cons.mp (List.nodup_append'.mp hl).2.1).1
  have hself : L.next (some i) ≠ some i := by
    rcases hseg.next_start with ⟨hn, -⟩ | ⟨j, hj, hn⟩
    · rw [hn]
      exact hb i (by simp)
    · rw [hn]
      exact fun heq => hi (Option.some.inj heq ▸ hj)
  induction l₁ generalizing a with
  | nil =>
    obtain ⟨hn, hp, -⟩ := h
    cases l₂ with
    | nil =>
      refine ⟨?_, ?_⟩
      · rw [unlink_next hself, if_pos hp.symm, hseg.1]
      · rw [unlink_prev, if_pos hseg.1.symm, hp]
    | cons j l₂ =>
      obtain ⟨hn', -, hseg'⟩ := hseg
      refine ⟨?_, ?_, hseg'.congr (fun x hx => ?_) fun x hx => ?_⟩
      · rw [unlink_next hself, if_pos hp.symm, hn']
      · rw [unlink_prev, if_pos hn'.symm, hp]
      · rw [unlink_next hself, hp, if_neg]
        rcases hx with rfl | ⟨k, hk, rfl⟩
        · exact (ha j (by simp)).symm
        · exact (ha k (by simp [hk])).symm
      · rw [unlink_prev, hn', if_neg]
        rcases hx with rfl | ⟨k, hk, rfl⟩
        · exact hb j (by simp)
        · rintro ⟨⟩
          exact (List.nodup_cons.mp (List.nodup_cons.mp hl).2).1 hk
  | cons k l₁ ih =>
    obtain ⟨hn, hp, h⟩ := h
    obtain ⟨hk, hl⟩ := List.nodup_cons.mp hl
    refine ⟨?_, ?_, ih h hl (fun j hj heq => ?_) fun j hj => hb j (List.mem_cons_of_mem k hj)⟩
    · rw [unlink_next hself, if_neg, hn]
      intro heq
      rcases (seg_append.mp h).1.prev_end with ⟨hpe, -⟩ | ⟨j, hj, hpe⟩
      · exact ha k List.mem_cons_self (heq.trans hpe)
      · exact ha j (by simp [hj]) (heq.trans hpe)
    · rw [unlink_prev, if_neg, hp]
      intro heq
      rcases hseg.next_start with ⟨hns, -⟩ | ⟨j, hj, hns⟩
      · exact hb k List.mem_cons_self (hns.symm.trans heq.symm)
      · obtain rfl : k = j := Option.some.inj (heq.trans hns)
        exact hk (by simp [hj])
    · exact hk (Option.some.inj heq ▸ hj)

theorem Spells.unlink (h : L.Spells l) (hl : l.Nodup) (hi : i ∈ l) : (L.unlink i).Spells (l.erase i) := by
  obtain ⟨l₁, l₂, hnot, rfl, herase⟩ := List.exists_erase_eq hi
  rw [herase]
  exact Seg.unlink h hl (fun j _ => (Option.some_ne_none j).symm) fun j _ => (Option.some_ne_none j).symm

end Change

/-! ### Walking along the list -/

/-- Follow `step` from a node until an element passes the test or the head is reached; `none` if that takes more than `n`
    elements. -/
def scan (step : Option ι → Option ι) (p : ι → Bool) : Nat → Option ι → Option (Option ι)
  | _, none => some none
  | 0, some _ => none
  | n + 1, some i => if p i then some (some i) else scan step p n (step (some i))

theorem Seg.scan_next {p : ι → Bool} (h : L.Seg a l none) : ∀ {n : Nat}, l.length ≤ n → scan L.next p n (L.next a) = some (l.find? p) := by
  induction l generalizing a with
  | nil =>
    intro n _
    rw [h.1]
    cases n <;> rfl
  | cons i l ih =>
    intro n hn
    obtain ⟨n, rfl⟩ : ∃ m, n = m + 1 := ⟨n - 1, by simp only [List.length_cons] at hn; omega⟩
    rw [h.1, scan]
    cases hp : p i with
    | true => rw [List.find?_cons_of_pos hp]; rfl
    | false =>
      rw [List.find?_cons_of_neg (by simp [hp]), ← ih h.2.2 (Nat.le_of_succ_le_succ hn)]
      rfl

theorem Seg.scan_prev {p : ι → Bool} (h : L.Seg none l b) : ∀ {n : Nat}, l.length ≤ n →
    scan L.prev p n (L.prev b) = some (l.reverse.find? p) := by
  induction l using List.reverseRecOn generalizing b with
  | nil =>
    intro n _
    rw [h.2]
    cases n <;> rfl
  | append_singleton l i ih =>
    intro n hn
    obtain ⟨n, rfl⟩ : ∃ m, n = m + 1 := ⟨n - 1, by simp only [List.length_append, List.length_singleton] at hn; omega⟩
    obtain ⟨hseg, -, hprev⟩ := seg_append.mp h
    rw [List.reverse_append, List.reverse_singleton, List.singleton_append, hprev, scan]
    cases hp : p i with
    | true => rw [List.find?_cons_of_pos hp]; rfl
    | false =>
      rw [List.find?_cons_of_neg (by simp [hp]), ← ih hseg (by simpa using hn)]
      rfl

end Links
