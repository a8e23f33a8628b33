import Xv6.Mp

/-! The walk over the configuration table ends unless it comes to an entry of a type that it does not know, and it counts as many
    processors as the table has entries for them. -/

namespace Xv6
namespace Mp
variable {t : MpTable} {e p rounds : Nat} {ps : List Nat} {s : Mp}

/-- How far the loop goes on behind an entry, if it knows the type. -/
def size (type : UInt8) : Option Nat :=
  if type = MPPROC then some 20
  else if type = MPIOAPIC then some 8
  else if type = MPBUS ∨ type = MPIOINTR ∨ type = MPLINTR then some 8
  else none

/-- From `p` to `e` the table has entries of known types at `ps`, one behind the other; the last may reach over `e`. -/
inductive Entries (t : MpTable) (e : Nat) : Nat → List Nat → Prop
  | stop {p : Nat} (h : e ≤ p) : Entries t e p []
  | entry {p n : Nat} {ps : List Nat} (h : p < e) (hsize : size (t p) = some n) (hps : Entries t e (p + n) ps) : Entries t e p (p :: ps)

theorem entry_next (t : MpTable) (p : Nat) (s : Mp) : (entry t p s).1 = p + (size (t p)).getD 0 := by
  unfold entry size
  split_ifs <;> rfl

theorem Entries.walk (h : Entries t e p ps) : ∃ q, e ≤ q ∧ ∀ s rounds, ps.length < rounds →
    Mp.walk t e rounds p s = some (q, ps.foldl (fun s p => (Mp.entry t p s).2) s) := by
  induction h with
  | stop h =>
    refine ⟨_, h, fun s rounds hrounds => ?_⟩
    cases rounds with
    | zero => cases hrounds
    | succ rounds => rw [Mp.walk, if_neg (Nat.not_lt.mpr h), List.foldl_nil]
  | entry h hsize _ ih =>
    obtain ⟨q, hq, hwalk⟩ := ih
    refine ⟨q, hq, fun s rounds hrounds => ?_⟩
    cases rounds with
    | zero => cases hrounds
    | succ rounds =>
      rw [Mp.walk, if_pos h, entry_next, hsize, Option.getD_some, hwalk _ rounds (Nat.lt_of_succ_lt_succ hrounds), List.foldl_cons]

theorem entries_of_walk {r : Nat × Mp} (h : Mp.walk t e rounds p s = some r) : ∃ ps, Entries t e p ps := by
  induction rounds generalizing p s with
  | zero => cases h
  | succ rounds ih =>
    rw [Mp.walk] at h
    split at h
    · rename_i hlt
      rw [entry_next] at h
      obtain ⟨ps, hps⟩ := ih h
      cases hsize : size (t p) with
      | none =>
        rw [hsize] at hps
        exact ⟨ps, hps⟩
      | some n =>
        rw [hsize] at hps
        exact ⟨p :: ps, .entry hlt hsize hps⟩
    · rename_i hge
      exact ⟨[], .stop (Nat.not_lt.mp hge)⟩

/-- The entries of a table that `mpinit` accepts. -/
abbrev TableEntries (t : MpTable) (ps : List Nat) : Prop := Entries t (length t) HEADER ps

theorem mpinit_eq (h : mpconfig t = true) (hps : TableEntries t ps) (hrounds : ps.length < rounds)
    (hs : ps.foldl (fun s p => (Mp.entry t p s).2) (start t) = s) :
    mpinit t rounds = some (if s.ismp then s else { s with ncpu := 1, lapic := 0, ioapicid := 0 }) := by
  obtain ⟨q, -, hwalk⟩ := hps.walk
  rw [mpinit, if_pos h, hwalk _ rounds hrounds, hs]
  rfl

theorem entries_of_mpinit (h : mpconfig t = true) (hs : mpinit t rounds = some s) : ∃ ps, TableEntries t ps := by
  rw [mpinit, if_pos h] at hs
  obtain ⟨r, hr, -⟩ := Option.bind_eq_some_iff.mp hs
  exact entries_of_walk hr

/-- The loop of `mpinit` ends exactly if all entries that it comes to have known types, and then it reads the table from the first
    entry to where it ends. -/
theorem mpinit_ends_iff (h : mpconfig t = true) :
    ((∃ rounds s, mpinit t rounds = some s) ↔ ∃ ps, TableEntries t ps) ∧
    ∀ ps, TableEntries t ps → ∃ q, length t ≤ q ∧ ∀ s rounds, ps.length < rounds →
      Mp.walk t (length t) rounds HEADER s = some (q, ps.foldl (fun s p => (Mp.entry t p s).2) s) := by
  refine ⟨⟨?_, ?_⟩, fun ps hps => hps.walk⟩
  · rintro ⟨rounds, s, hs⟩
    exact entries_of_mpinit h hs
  · rintro ⟨ps, hps⟩
    exact ⟨_, _, mpinit_eq h hps (Nat.lt_succ_self _) rfl⟩

/-- A table of 65 bytes, with an entry for a processor and one byte of another entry of this type. -/
def twoEntries (type : UInt8) : MpTable := fun i =>
  [0x50, 0x43, 0x4d, 0x50, 65, 0, 4, 0x8b - type].getD i (if i = HEADER + 20 then type else 0)

theorem mpinit_ends_iff_bus : mpconfig (twoEntries MPBUS) = true ∧ ∃ rounds s, mpinit (twoEntries MPBUS) rounds = some s := by
  have hconf : mpconfig (twoEntries MPBUS) = true := by decide +kernel
  refine ⟨hconf, (mpinit_ends_iff hconf).1.mpr ⟨[44, 64], ?_⟩⟩
  exact .entry (by decide) (rfl : _ = some 20) (.entry (by decide) (rfl : _ = some 8) (.stop (by decide)))

/-- With an entry of a type that is not known the loop goes on for ever. -/
theorem mpinit_loops : mpconfig (twoEntries 5) = true ∧ ∀ rounds, mpinit (twoEntries 5) rounds = none := by
  have hconf : mpconfig (twoEntries 5) = true := by decide +kernel
  refine ⟨hconf, fun rounds => Option.eq_none_iff_forall_ne_some.mpr fun s hs => ?_⟩
  obtain ⟨ps, hps⟩ := entries_of_mpinit hconf hs
  cases hps with
  | stop h => exact absurd h (by decide)
  | entry _ hsize hps =>
    obtain rfl : 20 = _ := Option.some.inj hsize
    cases hps with
    | stop h => exact absurd h (by decide)
    | entry _ hsize _ => cases hsize

/-! ### The processors -/

def procs (t : MpTable) (ps : List Nat) : Nat := ps.countP fun p => t p = MPPROC

theorem entries_written (ps : List Nat) (hs : s.written = List.range s.ncpu) :
    (ps.foldl (fun s p => (Mp.entry t p s).2) s).ncpu = s.ncpu + procs t ps ∧
    (ps.foldl (fun s p => (Mp.entry t p s).2) s).written = List.range (s.ncpu + procs t ps) := by
  induction ps generalizing s with
  | nil => exact ⟨rfl, hs⟩
  | cons p ps ih =>
    have hentry : (Mp.entry t p s).2.ncpu = s.ncpu + (if t p = MPPROC then 1 else 0) ∧
        (Mp.entry t p s).2.written = List.range (s.ncpu + if t p = MPPROC then 1 else 0) := by
      unfold Mp.entry
      by_cases hproc : t p = MPPROC
      · rw [if_pos hproc, if_pos hproc]
        exact ⟨rfl, by rw [List.range_succ, hs]⟩
      · rw [if_neg hproc, if_neg hproc]
        split_ifs <;> exact ⟨rfl, hs⟩
    have hcount : procs t (p :: ps) = (if t p = MPPROC then 1 else 0) + procs t ps := by
      rw [procs, procs, List.countP_cons, Nat.add_comm]
      simp
    rw [List.foldl_cons, hcount, ← Nat.add_assoc, ← hentry.1]
    exact ih (by rw [hentry.2, hentry.1])

/-- `mpinit` stays inside `cpus` exactly if the table has no more than `NCPU` entries for processors, and then `ncpu` is in bounds. -/
theorem mpinit_inside_iff (h : mpconfig t = true) (hps : TableEntries t ps) : ∃ s, (∀ rounds, ps.length < rounds → mpinit t rounds = some s) ∧
    ((∀ i ∈ s.written, i < NCPU) ↔ procs t ps ≤ NCPU) ∧ (procs t ps ≤ NCPU → s.ncpu ≤ NCPU) := by
  obtain ⟨hcount, hall⟩ := entries_written (s := start t) (t := t) ps rfl
  rw [show (start t).ncpu = 0 from rfl, Nat.zero_add] at hcount hall
  generalize hs : ps.foldl (fun s p => (Mp.entry t p s).2) (start t) = s at hcount hall
  have hinside : (∀ i ∈ List.range (procs t ps), i < NCPU) ↔ procs t ps ≤ NCPU := by
    refine ⟨fun h => Nat.not_lt.mp fun hlt => ?_, fun hle i hi => (List.mem_range.mp hi).trans_le hle⟩
    exact Nat.lt_irrefl _ (h NCPU (List.mem_range.mpr hlt))
  refine ⟨_, fun rounds hrounds => mpinit_eq h hps hrounds hs, ?_, fun hle => ?_⟩
  · rw [← hinside, ← hall]
    split <;> rfl
  · split
    · exact hcount ▸ hle
    · exact (by decide : 1 ≤ NCPU)

theorem mpinit_inside_iff_bus : mpconfig (twoEntries MPBUS) = true ∧ TableEntries (twoEntries MPBUS) [44, 64] ∧
    ∃ s, (∀ rounds, 2 < rounds → mpinit (twoEntries MPBUS) rounds = some s) ∧ s.ncpu ≤ NCPU := by
  have hconf : mpconfig (twoEntries MPBUS) = true := by decide +kernel
  have hps : TableEntries (twoEntries MPBUS) [44, 64] :=
    .entry (by decide) (rfl : _ = some 20) (.entry (by decide) (rfl : _ = some 8) (.stop (by decide)))
  obtain ⟨s, hs, -, hncpu⟩ := mpinit_inside_iff hconf hps
  exact ⟨hconf, hps, s, hs, hncpu (by decide)⟩

/-- A table of nine processors, with the right identifiers. -/
def nineProcs : MpTable := fun i =>
  [0x50, 0x43, 0x4d, 0x50, 224, 0, 4, 0xc8].getD i (if HEADER < i ∧ (i - HEADER) % 20 = 1 then .ofNat ((i - HEADER) / 20) else 0)

/-- The ninth processor is written behind the end of `cpus`. -/
theorem mpinit_overruns : mpconfig nineProcs = true ∧ (∃ ps, TableEntries nineProcs ps) ∧
    ∃ s, mpinit nineProcs 10 = some s ∧ NCPU ∈ s.written ∧ NCPU < s.ncpu := by
  have hrun : (mpinit nineProcs 10).any (fun s => decide (NCPU ∈ s.written ∧ NCPU < s.ncpu)) = true := by decide +kernel
  have hconf : mpconfig nineProcs = true := by decide +kernel
  obtain ⟨s, hs, htest⟩ := (Option.any_eq_true _ _).mp hrun
  exact ⟨hconf, entries_of_mpinit hconf hs, s, hs, of_decide_eq_true htest⟩

end Mp
end Xv6
