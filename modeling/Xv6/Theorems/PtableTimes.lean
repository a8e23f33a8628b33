import Xv6.Theorems.PtableSteps

/-! The times of a process add up, except when a zombie is killed. -/

namespace Xv6
open Machine
namespace Ptable
variable {s s' : Ptable} {a : Act} {i p q np : ProcIdx}

def Perf.AddsUp (f : Perf) (till : UInt32) : Prop := f.stime + f.retime + f.rutime = till - f.ctime

def Slot.AddsUp (x : Slot) (ticks : UInt32) : Prop :=
  (x.state.Live → x.times.AddsUp ticks) ∧ (x.state = .zombie → x.times.AddsUp x.times.ttime)

/-- Process time accounting adds up, and so does what `wait_stat` has reported. -/
structure Accounts (s : Ptable) : Prop where
  slot : ∀ p, (s.slot p).AddsUp s.ticks
  reap : ∀ r ∈ s.reaps, ∀ f, r.perf = some f → f.AddsUp f.ttime

/-- `kill` is not given the pid of a process that exited at an earlier tick. -/
def Spares (s : Ptable) : Act → Prop
  | .kill pid => ∀ p, (List.finRange NPROC).find? (fun p => (s.slot p).pid = pid) = some p → (s.slot p).state = .zombie →
      (s.slot p).ttime = s.ticks
  | _ => True

theorem Slot.AddsUp.same {x y : Slot} {ticks : UInt32} (h : x.AddsUp ticks) (htimes : y.times = x.times)
    (hstate : y.state = x.state ∨ x.state.Live ∧ y.state.Live) : y.AddsUp ticks := by
  unfold AddsUp at *
  rw [htimes]
  rcases hstate with he | ⟨hl, hl'⟩
  · rw [he]
    exact h
  · exact ⟨fun _ => h.1 hl, fun hz => by rw [hz] at hl'; exact hl'.elim⟩

theorem Slot.addsUp_of_empty {x : Slot} (h : x.state = .unused ∨ x.state = .embryo) (ticks : UInt32) : x.AddsUp ticks := by
  refine ⟨fun hl => ?_, fun hz => ?_⟩
  · rcases h with h | h <;> rw [h] at hl <;> exact hl.elim
  · rcases h with h | h <;> rw [h] at hz <;> cases hz

theorem add_swap (a b c : UInt32) : a + b + c = a + c + b := by
  rw [UInt32.add_assoc, UInt32.add_comm b, ← UInt32.add_assoc]

theorem Slot.AddsUp.tick {x : Slot} {ticks : UInt32} (h : x.AddsUp ticks) : x.tick.AddsUp (ticks + 1) := by
  have hsub : ticks + 1 - x.ctime = ticks - x.ctime + 1 := by
    rw [UInt32.sub_eq_add_neg, UInt32.sub_eq_add_neg, UInt32.add_assoc, UInt32.add_comm 1, ← UInt32.add_assoc]
  unfold Slot.tick
  split
  · rename_i hrun
    have hadd : x.stime + x.retime + x.rutime = ticks - x.ctime := h.1 (by rw [hrun]; trivial)
    refine ⟨fun _ => ?_, fun hz => by rw [hrun] at hz; cases hz⟩
    show x.stime + x.retime + (x.rutime + 1) = ticks + 1 - x.ctime
    rw [hsub, ← hadd, UInt32.add_assoc _ _ 1]
  · rename_i hsleep
    have hadd : x.stime + x.retime + x.rutime = ticks - x.ctime := h.1 (by rw [hsleep]; trivial)
    refine ⟨fun _ => ?_, fun hz => by rw [hsleep] at hz; cases hz⟩
    show x.stime + 1 + x.retime + x.rutime = ticks + 1 - x.ctime
    rw [hsub, ← hadd, add_swap x.stime, add_swap (x.stime + x.retime)]
  · rename_i hready
    have hadd : x.stime + x.retime + x.rutime = ticks - x.ctime := h.1 (by rw [hready]; trivial)
    refine ⟨fun _ => ?_, fun hz => by rw [hready] at hz; cases hz⟩
    show x.stime + (x.retime + 1) + x.rutime = ticks + 1 - x.ctime
    rw [hsub, ← hadd, ← UInt32.add_assoc, add_swap (x.stime + x.retime)]
  · rename_i hrun hsleep hready
    exact ⟨fun hl => by rcases live_iff.mp hl with hl | hl | hl <;> contradiction, h.2⟩

theorem Perf.AddsUp.iff {f : Perf} (h : f.AddsUp f.ttime) (till : UInt32) : f.AddsUp till ↔ f.ttime = till := by
  unfold AddsUp at *
  rw [h]
  constructor
  · intro heq
    rw [← UInt32.sub_add_cancel f.ttime f.ctime]
    exact (congrArg (· + f.ctime) heq).trans (UInt32.sub_add_cancel ..)
  · intro heq
    rw [← heq]

theorem Change.addsUp {x : Slot} (h : Change s a p x) (hx : (s.slot p).AddsUp s.ticks) (hspares : Spares s a) (htick : a ≠ .tick) :
    x.AddsUp s.ticks := by
  cases h with
  | rest => exact hx
  | moves | adopted | sets => exact hx.same rfl (.inl rfl)
  | wakes h | dispatched _ h | yields _ h | waits _ _ h => exact hx.same rfl (.inr ⟨h ▸ trivial, trivial⟩)
  | sleeps addr ha hat => exact hx.same rfl (.inr ⟨hat.1 ▸ trivial, trivial⟩)
  | allocated => exact Slot.addsUp_of_empty (.inr rfl) _
  | dropped => exact Slot.addsUp_of_empty (.inl rfl) _
  | reaped c => cases c <;> exact Slot.addsUp_of_empty (.inl rfl) _
  | born =>
    refine ⟨fun _ => ?_, fun hz => nomatch hz⟩
    show (0 + 0 + 0 : UInt32) = s.ticks - s.ticks
    rw [UInt32.sub_self]
    rfl
  | dies status parent ha h => exact ⟨fun hz => hz.elim, fun _ => hx.1 (h ▸ trivial)⟩
  | killed pid ha h =>
    subst ha
    by_cases hs : (s.slot p).state = .sleeping
    · rw [if_pos hs]
      exact ⟨fun _ => hx.1 (hs ▸ trivial), fun hz => nomatch hz⟩
    · rw [if_neg hs]
      exact ⟨hx.1, fun hz => ((hx.2 hz).iff s.ticks).mpr (hspares p h hz)⟩
  | ticks ha => exact absurd ha htick

theorem Accounts.kill_iff (h : Accounts s) (pid : UInt32) : Accounts (s.kill pid) ↔ Spares s (.kill pid) := by
  have hrest : (s.kill pid).ticks = s.ticks ∧ (s.kill pid).reaps = s.reaps := by
    unfold Ptable.kill
    split <;> exact ⟨rfl, rfl⟩
  constructor
  · intro hk p hp hz
    have hadd := (hk.slot p).2
    rw [Ptable.kill, hp] at hadd
    dsimp only at hadd
    rw [setSlot_self, if_neg (by rw [hz]; exact fun h => nomatch h)] at hadd
    exact (((h.slot p).2 hz).iff s.ticks).mp (hadd hz)
  · intro hspares
    refine ⟨fun p => ?_, hrest.2 ▸ h.reap⟩
    rw [hrest.1]
    exact (Change.kill pid p).addsUp (h.slot p) hspares fun h => nomatch h

theorem Accounts.step (hi : Inv s) (h : Accounts s) (hspares : Spares s a) (hs : s.step a = .ok s') : Accounts s' := by
  obtain ⟨-, hticks, hreaps⟩ := step_rest hs
  refine ⟨fun p => ?_, fun r hr f hf => ?_⟩
  · by_cases ha : a = .tick
    · subst ha
      cases hs
      exact (h.slot p).tick
    · rw [hticks.resolve_right ha]
      exact (step_change hi hs p).addsUp (h.slot p) hspares ha
  · rcases hreaps with heq | ⟨p, id, c, hz, heq⟩
    · exact h.reap r (heq ▸ hr) f hf
    · rw [heq] at hr
      rcases List.mem_cons.mp hr with rfl | hr
      · unfold Slot.report at hf
        dsimp only at hf
        split at hf <;> cases hf
        exact (h.slot p).2 hz
      · exact h.reap r hr f hf

theorem Accounts.boot (ticks : UInt32) (beyond : Int) : Accounts (boot ticks beyond) := by
  refine ⟨fun p => ?_, fun r hr => absurd hr List.not_mem_nil⟩
  show Slot.AddsUp (if p = 0 then _ else _) ticks
  split
  · refine ⟨fun _ => ?_, fun hz => nomatch hz⟩
    show (0 + 0 + 0 : UInt32) = ticks - ticks
    rw [UInt32.sub_self]
    rfl
  · exact Slot.addsUp_of_empty (Or.inl rfl) _

/-- In every run in which nobody kills a zombie at a later tick, the times of every process add up, and so do those that
    `wait_stat` reports; a `kill` that breaks this rule breaks the account. -/
theorem times_add_up (hs : Reachable step Spares (fun s => ∃ ticks beyond, s = boot ticks beyond) s) :
    (∀ p, (s.slot p).state.Live → (s.slot p).stime + (s.slot p).retime + (s.slot p).rutime = s.ticks - (s.slot p).ctime) ∧
    (∀ p, (s.slot p).state = .zombie → (s.slot p).stime + (s.slot p).retime + (s.slot p).rutime = (s.slot p).ttime - (s.slot p).ctime) ∧
    (∀ r ∈ s.reaps, ∀ f, r.perf = some f → f.stime + f.retime + f.rutime = f.ttime - f.ctime) ∧
    ∀ pid s', s.step (.kill pid) = .ok s' → (Accounts s' ↔ Spares s (.kill pid)) := by
  have h : Accounts s := (hs.invariant (P := fun s => Inv s ∧ Accounts s)
    (fun s ⟨ticks, beyond, h⟩ => h ▸ ⟨.boot ticks beyond, .boot ticks beyond⟩)
    fun s a s' h hg hs => ⟨h.1.step hs, h.2.step h.1 hg hs⟩).2
  refine ⟨fun p => (h.slot p).1, fun p => (h.slot p).2, h.reap, fun pid s' hk => ?_⟩
  cases hk
  exact h.kill_iff pid

/-- The first process waits one tick for the processor and then has it for two. -/
theorem times_add_up_three : ∃ s : Ptable, (s.slot 0).state = .running ∧ (s.slot 0).rutime = 2 ∧ (s.slot 0).retime = 1 ∧
    (s.slot 0).stime + (s.slot 0).retime + (s.slot 0).rutime = s.ticks - (s.slot 0).ctime := by
  obtain ⟨s, hs, hrun, hrutime, hretime⟩ : ∃ s,
      runList (fun s a => if (match a with | .kill _ => false | _ => true) = true then step s a else .sleep) (boot 5 0)
        [.tick, .dispatch 0, .tick, .tick] = .ok s ∧ (s.slot 0).state = .running ∧ (s.slot 0).rutime = 2 ∧ (s.slot 0).retime = 1 := by
    decide +kernel
  have hreach : Reachable step Spares (fun s => ∃ ticks beyond, s = boot ticks beyond) s := by
    refine .runGuarded (fun s a ha => ?_) (.init ⟨5, 0, rfl⟩) hs
    cases a <;> trivial
  exact ⟨s, hrun, hrutime, hretime, (times_add_up hreach).1 0 (by rw [hrun]; trivial)⟩

/-- A child exits at tick 0 and is killed at tick 1: it has lived for no time, but its end is at tick 1. -/
theorem killed_zombie_times : ∃ s : Ptable,
    Reachable step (fun _ _ => True) (fun s => ∃ ticks beyond, s = boot ticks beyond) s ∧ (s.slot 1).state = .zombie ∧
      (s.slot 1).stime + (s.slot 1).retime + (s.slot 1).rutime ≠ (s.slot 1).ttime - (s.slot 1).ctime := by
  obtain ⟨s, hs, hslot⟩ : ∃ s, runList step (boot 0 0) [.dispatch 0, .fork 0, .forkCopies 0, .forkEnds 0, .dispatch 1, .exit 1 0, .tick,
      .kill 2] = .ok s ∧ (s.slot 1).state = .zombie ∧
        (s.slot 1).stime + (s.slot 1).retime + (s.slot 1).rutime ≠ (s.slot 1).ttime - (s.slot 1).ctime := by
    decide +kernel
  exact ⟨s, .runList (fun _ _ => trivial) (.init ⟨0, 0, rfl⟩) hs, hslot⟩

end Ptable
end Xv6
