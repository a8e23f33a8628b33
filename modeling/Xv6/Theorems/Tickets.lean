import Xv6.Theorems.PtableSteps
import Xv6.Theorems.Sched
import Xv6.Smp

/-! The tickets of processes: how many a process can have, and when they are as many as its priority says. -/

namespace Xv6
open Outcome (ok_bind)
open Machine
namespace Sched
variable {ran : ProcIdx → Table → Table} {table : Table} {t : Nat}

/-! ### Sums that fit in an `int` -/

def Few (table : Table) : Prop := ∀ p, (table p).ntickets ≤ 100

theorem Few.sum_le (h : Few table) (ps : List ProcIdx) : (ps.map fun p => (table p).ntickets).sum ≤ 100 * ps.length := by
  have hall := List.sum_le_card_nsmul (ps.map fun p => (table p).ntickets) 100 fun n hn => by
    obtain ⟨p, -, rfl⟩ := List.mem_map.mp hn
    exact h p
  rw [List.length_map, smul_eq_mul] at hall
  omega

theorem add_ok {a b : Nat} (h : a + b ≤ INT_MAX) : add a b = .ok (a + b) := if_pos h

theorem countTickets_eq (h : Few table) (hz : ∀ p, (table p).state = .zombie → (table p).ntickets = 0) :
    ∀ (ps : List ProcIdx) (all : Nat), all + 100 * ps.length ≤ INT_MAX →
      countTickets table ps all = .ok (all + (ps.map fun p => (table p).ntickets).sum)
  | [], all, _ => by simp [countTickets]
  | p :: ps, all, hfit => by
    have hp := h p
    rw [List.length_cons] at hfit
    rw [countTickets, List.map_cons, List.sum_cons]
    split
    · rw [add_ok (by omega), ok_bind, countTickets_eq h hz ps _ (by omega), Nat.add_assoc]
    · rename_i hzombie
      rw [countTickets_eq h hz ps _ (by omega), hz p (not_not.mp hzombie), Nat.zero_add]

theorem dispatch_ok (hran : ∀ p table, Few (ran p table)) (t : Nat) : ∀ (ps : List ProcIdx) (table : Table) (counter : Nat),
    Few table → counter + 100 * ps.length ≤ INT_MAX → ∃ r, dispatch ran t ps table counter = .ok r
  | [], table, _, _, _ => ⟨_, rfl⟩
  | p :: ps, table, counter, h, hfit => by
    have hp := h p
    rw [List.length_cons] at hfit
    rw [dispatch, add_ok (by omega), ok_bind]
    split
    · exact dispatch_ok hran t ps table _ h (by omega)
    · split
      · exact ⟨_, rfl⟩
      · obtain ⟨r, hr⟩ := dispatch_ok hran t ps (ran p (switchTo table p)) (counter + (table p).ntickets) (hran p _) (by omega)
        rw [hr]
        exact ⟨_, rfl⟩

theorem pass_ok (h : Few table) (hz : ∀ p, (table p).state = .zombie → (table p).ntickets = 0)
    (hran : ∀ p table, Few (ran p table)) (next : UInt32) : ∃ r, pass ran next table = .ok r := by
  have hlen : (List.finRange NPROC).length = NPROC := List.length_finRange
  have hsum := h.sum_le (List.finRange NPROC)
  rw [pass, countTickets_eq h hz _ _ (by rw [hlen]; decide), ok_bind]
  have hfits : 1 + ((List.finRange NPROC).map fun p => (table p).ntickets).sum + 1 ≤ 2 ^ 15 := by
    rw [hlen] at hsum
    exact (Nat.add_le_add_right (Nat.add_le_add_left hsum 1) 1).trans (by decide)
  rw [rand_eq hfits next, ok_bind]
  dsimp only
  obtain ⟨r, hr⟩ := dispatch_ok hran _ (List.finRange NPROC) table 0 h (by rw [hlen]; decide)
  rw [hr]
  exact ⟨_, rfl⟩

theorem ticketsBelow_all (table : Table) :
    ticketsBelow table NPROC = ((List.finRange NPROC).map fun p => (table p).ntickets).sum := by
  rw [ticketsBelow, List.take_of_length_le (List.length_finRange.le)]

end Sched

namespace Ptable
variable {s s' : Ptable} {a : Act} {i p : ProcIdx}

/-! ### How many tickets there are -/

/-- A process that lives has some tickets, and an empty slot or a zombie none. -/
def View.Fair (v : View) : Prop := (v.state.Live → 1 ≤ v.ntickets ∧ v.ntickets ≤ 100) ∧ (¬v.state.Live → v.ntickets = 0)

structure Fair (s : Ptable) : Prop extends Inv s where
  policy : 1 ≤ s.currentPolicy ∧ s.currentPolicy ≤ 3
  slot : ∀ p, (s.slot p).view.Fair

theorem newTickets_bounds {policy : Nat} (h : 1 ≤ policy ∧ policy ≤ 3) (ntickets : Nat) :
    1 ≤ newTickets policy ntickets ∧ newTickets policy ntickets ≤ 100 := by
  obtain ⟨hlo, hhi⟩ := h
  obtain rfl | rfl | rfl : policy = 1 ∨ policy = 2 ∨ policy = 3 := by omega
  all_goals simp [newTickets]

theorem Turn.fair {v : View} (hf : (s.slot p).view.Fair) (hpolicy : 1 ≤ s.currentPolicy ∧ s.currentPolicy ≤ 3)
    (ht : Turn s a p v) : v.Fair := by
  have hlive : (s.slot p).state.Live → 1 ≤ (s.slot p).ntickets ∧ (s.slot p).ntickets ≤ 100 := hf.1
  have hdead : ¬(s.slot p).state.Live → (s.slot p).ntickets = 0 := hf.2
  cases ht with
  | rest => exact hf
  | wakes h => exact ⟨fun _ => hlive (h ▸ trivial), fun hd => absurd trivial hd⟩
  | dispatched _ h => exact ⟨fun _ => hlive (h ▸ trivial), fun hd => absurd trivial hd⟩
  | yields _ h =>
    have hb := hlive (h ▸ trivial)
    refine ⟨fun _ => ?_, fun hd => absurd trivial hd⟩
    dsimp only
    split <;> omega
  | sleeps _ h => exact ⟨fun _ => hlive (h ▸ trivial), fun hd => absurd trivial hd⟩
  | allocated h => exact ⟨fun hl => hl.elim, fun _ => hdead (by rw [h]; exact id)⟩
  | dropped h => exact ⟨fun hl => hl.elim, fun _ => hdead (by rw [h]; exact id)⟩
  | born _ h => exact ⟨fun _ => newTickets_bounds hpolicy _, fun hd => absurd trivial hd⟩
  | dies _ h => exact ⟨fun hl => hl.elim, fun _ => rfl⟩
  | reaped h priority => exact ⟨fun hl => hl.elim, fun _ => rfl⟩
  | sets priority _ h => exact hf

theorem Fair.step (h : Fair s) (hs : s.step a = .ok s') : Fair s' where
  toInv := h.toInv.step hs
  policy := by
    rcases (step_rest hs).1 with heq | ⟨-, hb⟩
    · rw [heq]
      exact h.policy
    · exact hb
  slot p := (step_turn h.toInv hs p).fair (h.slot p) h.policy

theorem Fair.boot (ticks : UInt32) (beyond : Int) : Fair (boot ticks beyond) where
  toInv := .boot ticks beyond
  policy := ⟨Nat.le_refl 1, Nat.le_of_ble_eq_true rfl⟩
  slot p := by
    show (if p = 0 then _ else _ : Slot).view.Fair
    split
    · exact ⟨fun _ => ⟨Nat.le_of_ble_eq_true rfl, Nat.le_of_ble_eq_true rfl⟩, fun hd => absurd trivial hd⟩
    · exact ⟨fun hl => hl.elim, fun _ => rfl⟩

/-- The states of the process table in all runs from `userinit` on. -/
abbrev Reached : Ptable → Prop := Reachable step (fun _ _ => True) fun s => ∃ ticks beyond, s = boot ticks beyond

theorem Reached.fair (h : Reached s) : Fair s :=
  h.invariant (P := Fair) (fun _ ⟨ticks, beyond, h⟩ => h ▸ .boot ticks beyond) fun _ _ _ h _ hs => h.step hs

theorem Fair.few (h : Fair s) : Sched.Few s.table := fun p => by
  by_cases hl : (s.slot p).state.Live
  · exact ((h.slot p).1 hl).2
  · exact ((h.slot p).2 hl).le.trans (Nat.zero_le _)

theorem Fair.zombie_zero (h : Fair s) (p : ProcIdx) (hz : (s.table p).state = .zombie) : (s.table p).ntickets = 0 :=
  (h.slot p).2 fun hl => by
    rw [show (s.slot p).view.state = .zombie from hz] at hl
    exact hl

theorem Fair.countTickets (h : Fair s) :
    Sched.countTickets s.table (List.finRange NPROC) 1 = .ok (1 + Sched.ticketsBelow s.table NPROC) := by
  rw [Sched.countTickets_eq h.few h.zombie_zero _ _ (by rw [List.length_finRange]; decide), Sched.ticketsBelow_all]

/-- In every reachable state: a process that is RUNNABLE, RUNNING or SLEEPING has 1 to 100 tickets, any other slot has
    none; so the two sums in `scheduler` agree, the draw does not overflow, whatever the table is when a process comes
    back, and every live process has a ticket that can be drawn. -/
theorem tickets_in_bounds (hs : Reached s) :
    (∀ p, (s.slot p).state.Live → 1 ≤ (s.slot p).ntickets ∧ (s.slot p).ntickets ≤ 100) ∧
    (∀ p, ¬(s.slot p).state.Live → (s.slot p).ntickets = 0) ∧
    Sched.countTickets s.table (List.finRange NPROC) 1 = .ok (1 + Sched.ticketsBelow s.table NPROC) ∧
    (∀ ran next, (∀ p t, ∃ s', Reached s' ∧ ran p t = s'.table) → ∃ r, Sched.pass ran next s.table = .ok r) ∧
    ∀ p, (s.slot p).state.Live → ∃ t, t < Sched.ticketsBelow s.table NPROC ∧ Sched.Owner s.table t p := by
  have h := hs.fair
  refine ⟨fun p => (h.slot p).1, fun p => (h.slot p).2, h.countTickets, fun ran next hran => ?_, fun p hl => ?_⟩
  · refine Sched.pass_ok h.few h.zombie_zero (fun p t => ?_) next
    obtain ⟨s', hs', heq⟩ := hran p t
    rw [heq]
    exact hs'.fair.few
  · have hpos : 1 ≤ (s.table p).ntickets := ((h.slot p).1 hl).1
    have hsucc := Sched.ticketsBelow_succ s.table p
    have hmono : Sched.ticketsBelow s.table (p + 1) ≤ Sched.ticketsBelow s.table NPROC := Sched.ticketsBelow_mono p.isLt
    exact ⟨Sched.ticketsBelow s.table p, by omega, le_refl _, by omega⟩

/-- A process has forked under policy 3. -/
theorem tickets_in_bounds_forked : ∃ s : Ptable, (s.slot 1).state = .runnable ∧ (s.slot 1).ntickets = 20 ∧
    Sched.countTickets s.table (List.finRange NPROC) 1 = .ok (1 + Sched.ticketsBelow s.table NPROC) := by
  obtain ⟨s, hs, hstate, htickets⟩ : ∃ s, runList step (boot 0 0) [.dispatch 0, .schedp 3, .fork 0, .forkCopies 0, .forkEnds 0] = .ok s ∧
      (s.slot 1).state = .runnable ∧ (s.slot 1).ntickets = 20 := by
    decide +kernel
  exact ⟨s, hstate, htickets, (tickets_in_bounds (.runList (fun _ _ => trivial) (.init ⟨0, 0, rfl⟩) hs)).2.2.1⟩

/-! ### Tickets that nobody owns -/

/-- The ticket that `scheduler` draws is owned by a process if and only if it is below the sum of all tickets, which can be told
    from the sum and the generator. -/
theorem draw_owned_iff (hs : Reached s) (next : UInt32) {sum : Nat} (hsum : Sched.ticketsBelow s.table NPROC = sum) : ∃ t next',
    Sched.countTickets s.table (List.finRange NPROC) 1 = .ok (sum + 1) ∧ Sched.rand next (sum + 1) = .ok (t, next') ∧
    ((∃ p, Sched.Owner s.table t p) ↔ t < sum) ∧
    ((∃ p, Sched.Owner s.table t p) ↔ (next.toNat * 1103515245 + 12345) % 2 ^ 32 / (2 * (sum + 2)) % (sum + 2) < sum) := by
  have h := hs.fair
  have hfits : sum + 1 + 1 ≤ 2 ^ 15 := by
    have hle := h.few.sum_le (List.finRange NPROC)
    rw [← Sched.ticketsBelow_all, List.length_finRange, hsum] at hle
    exact (Nat.add_le_add_right hle 2).trans (by decide)
  have hnext : (next * 1103515245 + 12345).toNat = (next.toNat * 1103515245 + 12345) % 2 ^ 32 := by
    rw [UInt32.toNat_add, UInt32.toNat_mul]
    exact Nat.mod_add_mod ..
  have hcount := h.countTickets
  rw [hsum, Nat.add_comm] at hcount
  refine ⟨_, _, hcount, Sched.rand_eq hfits next, ?_, ?_⟩
  · rw [Sched.exists_owner_iff, hsum]
  · rw [Sched.exists_owner_iff, hsum, hnext]

/-- The first process has ten tickets, and the generator starts at 1. -/
theorem draw_owned_iff_boot : ∃ t next', Sched.countTickets (boot 0 0).table (List.finRange NPROC) 1 = .ok 11 ∧
    Sched.rand 1 11 = .ok (t, next') ∧ ∃ p, Sched.Owner (boot 0 0).table t p := by
  have hten : Sched.ticketsBelow (boot 0 0).table NPROC = 10 := by decide +kernel
  obtain ⟨t, next', hall, hrand, -, hiff⟩ := draw_owned_iff (.init ⟨0, 0, rfl⟩) 1 hten
  exact ⟨t, next', hall, hrand, hiff.mpr (by decide)⟩

/-- The first process has the tickets 0 to 9, and 10 is drawn. -/
theorem draw_without_owner : Reached (boot 0 0) ∧ ((boot 0 0).slot 0).state.Live ∧
    Sched.countTickets (boot 0 0).table (List.finRange NPROC) 1 = .ok 11 ∧
    ∃ next next', Sched.rand next 11 = .ok (10, next') ∧ ¬∃ p, Sched.Owner (boot 0 0).table 10 p := by
  have hten : Sched.ticketsBelow (boot 0 0).table NPROC = 10 := by decide +kernel
  refine ⟨.init ⟨0, 0, rfl⟩, trivial, ?_, 3401864499, 240, rfl, fun hex => ?_⟩
  · rw [(Fair.boot 0 0).countTickets, hten]
  · have hlt := Sched.exists_owner_iff.mp hex
    rw [hten] at hlt
    exact absurd hlt (lt_irrefl 10)

/-! ### Tickets of those who wake up -/

def SleepsOn (s : Ptable) (c : Chan) (p : ProcIdx) : Prop := (s.slot p).state = .sleeping ∧ (s.slot p).chan = some c

instance (s : Ptable) (c : Chan) (p : ProcIdx) : Decidable (s.SleepsOn c p) := inferInstanceAs (Decidable (_ ∧ _))

/-- Exactly those who sleep on the channel become RUNNABLE. -/
def Woken (s : Ptable) (c : Chan) (s' : Ptable) : Prop :=
  ∀ p, (s'.slot p).state = if s.SleepsOn c p then .runnable else (s.slot p).state

/-- With policy 3 they get 10 tickets if they have fewer than 90, and nobody else gets any. -/
def Paid (s : Ptable) (c : Chan) (s' : Ptable) : Prop :=
  ∀ p, (s'.slot p).ntickets = if s.SleepsOn c p ∧ s.currentPolicy = 3 ∧ (s.slot p).ntickets < 90 then (s.slot p).ntickets + 10
    else (s.slot p).ntickets

theorem wakeupLoop_eq (c : Chan) : ∀ (ps : List ProcIdx) (s : Ptable), ps.Nodup → wakeupLoop c ps s =
    ⟨ps.map (·.val), .ok { s with slot := fun q => if q ∈ ps ∧ s.SleepsOn c q then { s.slot q with state := .runnable } else s.slot q }⟩
  | [], s, _ => by
    simp only [List.not_mem_nil, false_and, if_false]
    rfl
  | p :: ps, s, hnodup => by
    obtain ⟨hp, hnodup⟩ := List.nodup_cons.mp hnodup
    have hstep : (if (s.slot p).state = .sleeping ∧ (s.slot p).chan = some c then s.setSlot p { s.slot p with state := .runnable } else s) =
        { s with slot := fun q => if q = p ∧ s.SleepsOn c q then { s.slot q with state := .runnable } else s.slot q } := by
      split
      · rename_i hsleeps
        refine congrArg (fun slot => { s with slot := slot }) (funext fun q => ?_)
        by_cases hq : q = p
        · subst hq
          rw [Function.update_self, if_pos ⟨rfl, hsleeps⟩]
        · rw [Function.update_of_ne hq, if_neg fun h => hq h.1]
      · rename_i hawake
        refine congrArg (fun slot => { s with slot := slot }) (funext fun q => ?_)
        rw [if_neg]
        rintro ⟨rfl, hq⟩
        exact hawake hq
    rw [wakeupLoop, hstep, wakeupLoop_eq c ps _ hnodup]
    refine congrArg (fun slot => (⟨p.val :: ps.map (·.val), .ok { s with slot := slot }⟩ : Traced Nat Ptable)) (funext fun q => ?_)
    by_cases hq : q = p
    · subst hq
      simp [hp]
    · simp [hq, SleepsOn]

theorem wakeupTraced_eq (s : Ptable) (c : Chan) : s.wakeupTraced c =
    ⟨(List.finRange NPROC).map (·.val) ++ if s.currentPolicy = 3 then [NPROC] else [], .ok (s.wakeup1 c)⟩ := by
  have hloop := wakeupLoop_eq c (List.finRange NPROC) s (List.nodup_finRange NPROC)
  simp only [List.mem_finRange, true_and] at hloop
  rw [wakeupTraced, hloop, Traced.ok_bind, wakeup1]
  dsimp only
  by_cases hpolicy : s.currentPolicy = 3
  · rw [if_pos hpolicy, if_pos hpolicy]
    by_cases hfew : s.beyond < 90
    · rw [if_pos hfew, if_pos ⟨hpolicy, hfew⟩]
      rfl
    · rw [if_neg hfew, if_neg fun h => hfew h.2]
      rfl
  · rw [if_neg hpolicy, if_neg hpolicy, if_neg fun h => hpolicy h.1]
    rfl

/-- `wakeup1` wakes those it should and pays nobody. With policy 3 it looks behind the table. -/
theorem wakeup_paid_iff (s : Ptable) (c : Chan) : ∃ s', (s.wakeupTraced c).out = .ok s' ∧ Woken s c s' ∧
    (∀ p, (s'.slot p).ntickets = (s.slot p).ntickets) ∧
    (Paid s c s' ↔ s.currentPolicy = 3 → ∀ p, s.SleepsOn c p → 90 ≤ (s.slot p).ntickets) ∧
    ((∀ i ∈ (s.wakeupTraced c).trace, i < NPROC) ↔ s.currentPolicy ≠ 3) := by
  have hslot : ∀ p, (s.wakeup1 c).slot p = if s.SleepsOn c p then { s.slot p with state := .runnable } else s.slot p := fun _ => rfl
  have hsame : ∀ p, ((s.wakeup1 c).slot p).ntickets = (s.slot p).ntickets := fun p => by
    rw [hslot]
    split <;> rfl
  rw [wakeupTraced_eq]
  refine ⟨s.wakeup1 c, rfl, fun p => ?_, hsame, ?_, ?_⟩
  · rw [hslot]
    split <;> rfl
  · constructor
    · intro hpaid hpolicy p hp
      by_contra hfew
      have := hpaid p
      rw [hsame, if_pos ⟨hp, hpolicy, Nat.lt_of_not_le hfew⟩] at this
      omega
    · intro h p
      rw [hsame, if_neg]
      rintro ⟨hp, hpolicy, hfew⟩
      exact absurd (h hpolicy p hp) (Nat.not_le.mpr hfew)
  · constructor
    · intro h hpolicy
      exact absurd (h NPROC (by simp [hpolicy])) (lt_irrefl NPROC)
    · intro hpolicy i hi
      rw [if_neg hpolicy, List.append_nil] at hi
      obtain ⟨p, -, rfl⟩ := List.mem_map.mp hi
      exact p.isLt

/-- The first process sleeps with 10 tickets and is woken with policy 3. -/
theorem woken_unpaid : ∃ s s' : Ptable, Reached s ∧ s.currentPolicy = 3 ∧ s.SleepsOn (.other 5) 0 ∧ (s.slot 0).ntickets = 10 ∧
    (s.wakeupTraced (.other 5)).out = .ok s' ∧ (s'.slot 0).ntickets = 10 ∧ NPROC ∈ (s.wakeupTraced (.other 5)).trace := by
  obtain ⟨s, hs, hpolicy, hsleeps, hten⟩ : ∃ s, runList step (boot 0 0) [.dispatch 0, .schedp 3, .sleep 0 5] = .ok s ∧
      s.currentPolicy = 3 ∧ s.SleepsOn (.other 5) 0 ∧ (s.slot 0).ntickets = 10 := by
    decide +kernel
  refine ⟨s, s.wakeup1 (.other 5), .runList (fun _ _ => trivial) (.init ⟨0, 0, rfl⟩) hs, hpolicy, hsleeps, hten, ?_, ?_, ?_⟩
  · rw [wakeupTraced_eq]
  · show (if s.SleepsOn (.other 5) 0 then _ else _ : Slot).ntickets = 10
    rw [if_pos hsleeps]
    exact hten
  · rw [wakeupTraced_eq]
    simp [hpolicy]

/-! ### Tickets and priorities -/

/-- Every live process has as many tickets as its priority says. -/
def Synced (s : Ptable) : Prop := ∀ p, (s.slot p).state.Live → ((s.slot p).ntickets : Int) = (s.slot p).priority

/-- The step changes the tickets and the priority of nobody, or both alike: `priority` is called with the number of
    tickets that the process has, and under policy 3 nobody is forked and nobody pays a ticket in `yield`. -/
def InStep (s : Ptable) : Act → Prop
  | .priority i priority => priority = (s.slot i).ntickets
  | .forkEnds _ => s.currentPolicy ≠ 3
  | .yield i => s.currentPolicy = 3 → (s.slot i).ntickets ≤ 1
  | _ => True

theorem newTickets_eq_ten {policy : Nat} (h : 1 ≤ policy ∧ policy ≤ 3) (ntickets : Nat) :
    newTickets policy ntickets = 10 ↔ policy ≠ 3 := by
  obtain ⟨hlo, hhi⟩ := h
  obtain rfl | rfl | rfl : policy = 1 ∨ policy = 2 ∨ policy = 3 := by omega
  all_goals simp [newTickets]

theorem Synced.turn {v : View} (h : Synced s) (hpolicy : 1 ≤ s.currentPolicy ∧ s.currentPolicy ≤ 3) (hg : InStep s a)
    (ht : Turn s a p v) (hv : v.state.Live) : (v.ntickets : Int) = v.priority := by
  cases ht with
  | rest => exact h p hv
  | wakes hp => exact h p (hp ▸ trivial)
  | dispatched _ hp => exact h p (hp ▸ trivial)
  | yields ha hp =>
    subst ha
    dsimp only
    rw [if_neg fun hpay => absurd (hg hpay.1) (Nat.not_le.mpr hpay.2)]
    exact h p (hp ▸ trivial)
  | sleeps _ hp => exact h p (hp ▸ trivial)
  | allocated | dropped | dies | reaped => exact hv.elim
  | born ha hp =>
    obtain ⟨j, rfl⟩ := ha
    rw [(newTickets_eq_ten hpolicy _).mpr hg]
    rfl
  | sets priority ha hp =>
    subst ha
    exact hg.symm

/-- From a state in which tickets and priorities agree, exactly the steps in `InStep` lead to another one. -/
theorem Synced.step_iff (h : Synced s) (hf : Fair s) (hs : s.step a = .ok s') : Synced s' ↔ InStep s a := by
  refine ⟨fun h' => ?_, fun hg p hl => h.turn hf.policy hg (step_turn hf.toInv hs p) hl⟩
  cases a with
  | priority i priority =>
    rw [Ptable.step] at hs
    split at hs <;> cases hs
    rename_i hat
    have hi := h' i
    rw [setSlot_self] at hi
    exact (hi (by show (s.slot i).state.Live; rw [hat.1]; trivial)).symm
  | forkEnds i =>
    rw [Ptable.step] at hs
    split at hs
    · rename_i np hpc
      split at hs <;> cases hs
      have hne := hf.toInv.forks_ne (Or.inr hpc)
      have hnp := h' np
      rw [setSlot_of_ne _ _ hne.symm, forked, setSlot_self] at hnp
      refine (newTickets_eq_ten hf.policy (s.slot np).ntickets).mp ?_
      exact Int.ofNat.inj (hnp trivial)
    · cases hs
  | yield i =>
    rw [Ptable.step] at hs
    split at hs <;> cases hs
    rename_i hrun
    intro hpolicy
    by_contra hlt
    have hi := h' i
    rw [setSlot_self] at hi
    dsimp only at hi
    rw [if_pos ⟨hpolicy, Nat.not_le.mp hlt⟩] at hi
    have hold := h i (hrun ▸ trivial)
    have := (hi trivial).trans hold.symm
    omega
  | fork | forkFails | forkCopies | exit | wait | waitAgain | sleep | wakeup | dispatch | kill | tick | schedp => trivial

theorem Synced.boot (ticks : UInt32) (beyond : Int) : Synced (boot ticks beyond) := fun p hl => by
  have hslot : (Ptable.boot ticks beyond).slot p = if p = 0 then
    { state := .runnable, pid := 1, ntickets := 10, priority := 10, ctime := ticks } else {} := rfl
  rw [hslot] at hl ⊢
  split
  · rfl
  · rename_i hp
    rw [if_neg hp] at hl
    exact hl.elim

/-- In every run whose steps are all in `InStep` the tickets of a live process are its priority, under policy 2 as under
    any other; the first step that is not in `InStep` ends this. -/
theorem tickets_are_priority (hs : Reachable step InStep (fun s => ∃ ticks beyond, s = boot ticks beyond) s) :
    (s.currentPolicy = 2 → ∀ p, (s.slot p).state.Live → ((s.slot p).ntickets : Int) = (s.slot p).priority) ∧
    ∀ a s', s.step a = .ok s' → (Synced s' ↔ InStep s a) := by
  have h : Synced s ∧ Fair s := hs.invariant (P := fun s => Synced s ∧ Fair s)
    (fun _ ⟨ticks, beyond, h⟩ => h ▸ ⟨.boot ticks beyond, .boot ticks beyond⟩)
    fun _ _ _ h hg hs => ⟨(h.1.step_iff h.2 hs).mpr hg, h.2.step hs⟩
  exact ⟨fun _ => h.1, fun a s' => h.1.step_iff h.2⟩

/-- Steps that are in `InStep` whatever the tickets are. -/
def plainly (s : Ptable) : Act → Bool
  | .priority _ _ => false
  | .forkEnds _ => s.currentPolicy != 3
  | .yield _ => false
  | _ => true

/-- A process has forked, and then the policy is 2. -/
theorem tickets_are_priority_forked : ∃ s : Ptable, s.currentPolicy = 2 ∧ (s.slot 1).state = .runnable ∧
    ((s.slot 1).ntickets : Int) = (s.slot 1).priority := by
  obtain ⟨s, hs, htest⟩ : ∃ s, runList (fun s a => if plainly s a then step s a else .sleep) (boot 0 0)
      [.dispatch 0, .fork 0, .forkCopies 0, .forkEnds 0, .schedp 2] = .ok s ∧ s.currentPolicy = 2 ∧ (s.slot 1).state = .runnable := by
    decide +kernel
  have hreach : Reachable step InStep (fun s => ∃ ticks beyond, s = boot ticks beyond) s := by
    refine .runGuarded (fun s a ha => ?_) (.init ⟨0, 0, rfl⟩) hs
    cases a with
    | forkEnds i => simpa [InStep, plainly] using ha
    | priority => cases ha
    | yield => cases ha
    | fork | forkFails | forkCopies | exit | wait | waitAgain | sleep | wakeup | dispatch | kill | tick | schedp => trivial
  exact ⟨s, htest.1, htest.2, (tickets_are_priority hreach).1 htest.1 1 (by rw [htest.2]; trivial)⟩

/-- Under policy 2 a process lowers its priority to 5, and keeps its ten tickets. -/
theorem priority_keeps_tickets : ∃ s : Ptable, Reached s ∧ s.currentPolicy = 2 ∧ (s.slot 0).state = .running ∧
    (s.slot 0).ntickets = 10 ∧ (s.slot 0).priority = 5 := by
  obtain ⟨s, hs, hslot⟩ : ∃ s, runList step (boot 0 0) [.dispatch 0, .schedp 2, .priority 0 5] = .ok s ∧ s.currentPolicy = 2 ∧
      (s.slot 0).state = .running ∧ (s.slot 0).ntickets = 10 ∧ (s.slot 0).priority = 5 := by
    decide +kernel
  exact ⟨s, .runList (fun _ _ => trivial) (.init ⟨0, 0, rfl⟩) hs, hslot⟩

end Ptable
end Xv6
