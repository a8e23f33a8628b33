import Mathlib.Data.List.Nodup
import Mathlib.Logic.Function.Basic

/-! Singly linked queues: a head pointer, and in every element a pointer to the next. -/

universe u

structure Chain (ι : Type u) where
  head : Option ι
  next : ι → Option ι

namespace Chain
open Function (update update_of_ne update_self)
variable {ι : Type u}

/-- The pointer at a place: the head, which is `none`, or that of an element. -/
def deref (c : Chain ι) : Option ι → Option ι
  | none => c.head
  | some i => c.next i

/-- Walk from a place to the first one that holds no pointer; it takes as many steps as are given, at most. -/
def findEnd (c : Chain ι) : Nat → Option ι → Option (Option ι)
  | 0, _ => none
  | n + 1, pp =>
    match c.deref pp with
    | none => some pp
    | some i => c.findEnd n (some i)

variable [DecidableEq ι]

def assign (c : Chain ι) (pp : Option ι) (i : ι) : Chain ι :=
  match pp with
  | none => { c with head := some i }
  | some j => { c with next := update c.next j (some i) }

/-- Put an element at the end, found in that many steps. -/
def append (c : Chain ι) (steps : Nat) (i : ι) : Option (Chain ι) :=
  let c := { c with next := update c.next i none }
  (c.findEnd steps none).map fun pp => c.assign pp i

omit [DecidableEq ι]

/-- From the pointer `a` on, the elements are those of the list. -/
def From (next : ι → Option ι) : Option ι → List ι → Prop
  | a, [] => a = none
  | a, i :: l => a = some i ∧ From next (next i) l

def Spells (c : Chain ι) (l : List ι) : Prop := From c.next c.head l

variable {c : Chain ι} {next next' : ι → Option ι} {a : Option ι} {i j : ι} {l : List ι}

theorem From.congr (h : From next a l) (hn : ∀ i ∈ l, next' i = next i) : From next' a l := by
  induction l generalizing a with
  | nil => exact h
  | cons i l ih =>
    refine ⟨h.1, ?_⟩
    rw [hn i List.mem_cons_self]
    exact ih h.2 fun j hj => hn j (List.mem_cons_of_mem i hj)

theorem From.findEnd (pp : Option ι) (h : From c.next (c.deref pp) l) {steps : Nat} (hs : l.length < steps) :
    c.findEnd steps pp = some (l.getLast?.or pp) := by
  induction l generalizing pp steps with
  | nil =>
    obtain ⟨n, rfl⟩ : ∃ n, steps = n + 1 := ⟨steps - 1, (Nat.succ_pred_eq_of_pos hs).symm⟩
    rw [Chain.findEnd, show c.deref pp = none from h]
    rfl
  | cons i l ih =>
    obtain ⟨n, rfl⟩ : ∃ n, steps = n + 1 := ⟨steps - 1, (Nat.succ_pred_eq_of_pos (Nat.zero_lt_of_lt hs)).symm⟩
    rw [Chain.findEnd, h.1]
    change c.findEnd n (some i) = _
    rw [ih (some i) h.2 (Nat.lt_of_succ_lt_succ hs), List.getLast?_cons]
    cases l.getLast? <;> rfl

theorem From.snoc [DecidableEq ι] (h : From next a l) (hl : l.Nodup) (hi : i ∉ l) (hnext : next i = none) :
    ∀ j, l.getLast? = some j → From (update next j (some i)) a (l ++ [i]) := by
  induction l generalizing a with
  | nil => exact fun j hj => nomatch hj
  | cons k l ih =>
    intro j hj
    obtain ⟨hk, hl⟩ := List.nodup_cons.mp hl
    refine ⟨h.1, ?_⟩
    cases l with
    | nil =>
      obtain rfl : k = j := Option.some.inj hj
      have hne : i ≠ k := fun h => hi (h ▸ List.mem_cons_self)
      rw [update_self]
      exact ⟨rfl, (update_of_ne hne _ _).trans hnext⟩
    | cons m l =>
      have hmem : j ∈ m :: l := List.mem_of_getLast? (by rw [List.getLast?_cons_cons] at hj; exact hj)
      have hne : k ≠ j := fun h => hk (h ▸ hmem)
      rw [update_of_ne hne]
      exact ih h.2 hl (fun hmem => hi (List.mem_cons_of_mem k hmem)) j (by rw [List.getLast?_cons_cons] at hj; exact hj)

theorem Spells.append [DecidableEq ι] (h : c.Spells l) (hl : l.Nodup) (hi : i ∉ l) {steps : Nat} (hs : l.length < steps) :
    ∃ c', c.append steps i = some c' ∧ c'.Spells (l ++ [i]) := by
  have hfrom : From (update c.next i none) c.head l := From.congr h fun j hj =>
    update_of_ne (by rintro rfl; exact hi hj) _ _
  have hend := From.findEnd (c := ⟨c.head, update c.next i none⟩) none hfrom hs
  refine ⟨_, by rw [Chain.append, hend]; rfl, ?_⟩
  cases l with
  | nil => exact ⟨rfl, update_self ..⟩
  | cons k l =>
    obtain ⟨j, hj⟩ : ∃ j, (k :: l).getLast? = some j := ⟨_, List.getLast?_cons⟩
    rw [hj]
    exact hfrom.snoc hl hi (update_self ..) j hj

theorem Spells.pop (h : c.Spells (i :: l)) : c.head = some i ∧ Spells ⟨c.next i, c.next⟩ l := h

theorem Spells.head (h : c.Spells l) : c.head = l.head? := by
  cases l with
  | nil => exact h
  | cons i l => exact h.1

end Chain
