import Xv6.Smp
import Xv6.Theorems.PtableSteps

/-! On any number of processors, a process runs on one of them at a time. -/

namespace Xv6
open Function (update update_self)
open Outcome (ensures_iff ensures_true)
open Machine

namespace Ptable
variable {s s' : Ptable} {a : Act} {p : ProcIdx} {v : View}

theorem Turn.running_iff (h : Turn s a p v) (hactor : a.actor ≠ some p) (hd : a ≠ .dispatch p) :
    v.state = .running ↔ (s.slot p).state = .running := by
  cases h with
  | rest => exact Iff.rfl
  | wakes h | allocated h | dropped h | born _ h | reaped h _ =>
    rw [h]
    exact ⟨nofun, nofun⟩
  | dispatched ha _ => exact absurd ha hd
  | yields ha _ => exact absurd (ha ▸ rfl) hactor
  | sleeps ha _ | dies ha _ => exact absurd ha hactor
  | sets priority ha _ => exact absurd (ha ▸ rfl) hactor

theorem step_dispatch {t : Ptable} (h : s.step (.dispatch p) = .ok t) (q : ProcIdx) :
    (t.slot q).state = .running ↔ q = p ∨ (s.slot q).state = .running := by
  rw [step] at h
  split at h <;> cases h
  by_cases hq : q = p
  · rw [hq, setSlot_self]
    exact ⟨fun _ => Or.inl rfl, fun _ => rfl⟩
  · rw [setSlot_of_ne s _ hq]
    exact ⟨Or.inr, fun h => h.resolve_left hq⟩

end Ptable

namespace Smp
variable {ι : Type} {s s' : Smp ι} {c : ι} {p : ProcIdx}

/-- A process is RUNNING iff a processor other than `c` has it, and no two of them have the same; `c` is in `scheduler`. -/
structure Without (s : Smp ι) (c : ι) : Prop extends Ptable.Inv s.ptable where
  running : ∀ p, (s.ptable.slot p).state = .running ↔ ∃ d, d ≠ c ∧ s.proc d = some p
  inj : ∀ d e p, d ≠ c → e ≠ c → s.proc d = some p → s.proc e = some p → d = e

/-- A process is RUNNING iff some processor has it, and no two have the same. -/
structure Apart (s : Smp ι) : Prop extends Ptable.Inv s.ptable where
  running : ∀ p, (s.ptable.slot p).state = .running ↔ ∃ c, s.proc c = some p
  inj : ∀ c d p, s.proc c = some p → s.proc d = some p → c = d

theorem Apart.running_unique (h : Apart s) (p : ProcIdx) : (s.ptable.slot p).state = .running ↔ ∃! c, s.proc c = some p := by
  rw [h.running p]
  constructor
  · rintro ⟨c, hc⟩
    exact ⟨c, hc, fun d hd => h.inj d c p hd hc⟩
  · rintro ⟨c, hc, -⟩
    exact ⟨c, hc⟩

theorem Apart.without (h : Apart s) (hc : s.proc c = none) : Without s c where
  toInv := h.toInv
  running p := by
    rw [h.running p]
    constructor
    · rintro ⟨d, hd⟩
      refine ⟨d, ?_, hd⟩
      rintro rfl
      rw [hc] at hd
      cases hd
    · rintro ⟨d, -, hd⟩
      exact ⟨d, hd⟩
  inj d e p _ _ := h.inj d e p

/-! ### The scheduler -/

theorem scan_runnable {t : Ptable} {chosen : Nat} {l : DispatchLoop} : ∀ {ps : List ProcIdx} {counter : Nat},
    scan t chosen ps counter = some (p, l) → (t.slot p).state = .runnable
  | q :: ps, counter, h => by
    rw [scan] at h
    split at h
    · exact scan_runnable h
    · split at h
      · cases h
      · rename_i hrun
        cases h
        exact not_not.mp hrun

theorem Without.resume [DecidableEq ι] (h : Without s c) (l : DispatchLoop) : (s.resume c l).Ensures Apart := by
  have hother : ∀ (v : Option ProcIdx) d p, d ≠ c → (update s.proc c v d = some p ↔ s.proc d = some p) :=
    fun v d p hd => by rw [Function.update_of_ne hd]
  unfold Smp.resume
  split
  · -- No process is found, and the lock is released.
    refine ⟨h.toInv, fun p => ?_, fun d e p hd he => ?_⟩
    · refine (h.running p).trans ⟨fun ⟨d, hdc, hd⟩ => ⟨d, (hother none d p hdc).mpr hd⟩, fun ⟨d, hd⟩ => ?_⟩
      by_cases hdc : d = c
      · dsimp only at hd
        rw [hdc, update_self] at hd
        cases hd
      · exact ⟨d, hdc, (hother none d p hdc).mp hd⟩
    · dsimp only at hd he
      have hdc : d ≠ c := by
        rintro rfl
        rw [update_self] at hd
        cases hd
      have hec : e ≠ c := by
        rintro rfl
        rw [update_self] at he
        cases he
      exact h.inj d e p hdc hec ((hother none d p hdc).mp hd) ((hother none e p hec).mp he)
  · rename_i p l' hscan
    have hp := scan_runnable hscan
    -- It was RUNNABLE, so no other processor has it.
    have hnone : ∀ d, d ≠ c → s.proc d ≠ some p := fun d hdc hd => by
      have hrun := (h.running p).mpr ⟨d, hdc, hd⟩
      rw [hp] at hrun
      cases hrun
    refine Outcome.Ensures.bind (ensures_iff.mpr fun t ht => (⟨h.toInv.step ht, Ptable.step_dispatch ht⟩ :
      Ptable.Inv t ∧ ∀ q, (t.slot q).state = .running ↔ q = p ∨ (s.ptable.slot q).state = .running)) ?_
    rintro t ⟨hinv, hrun⟩
    refine ⟨hinv, fun q => (hrun q).trans ?_, fun d e q hd he => ?_⟩
    · rw [h.running q]
      constructor
      · rintro (rfl | ⟨d, hdc, hd⟩)
        · exact ⟨c, update_self ..⟩
        · exact ⟨d, (hother _ d q hdc).mpr hd⟩
      · rintro ⟨d, hd⟩
        by_cases hdc : d = c
        · dsimp only at hd
          rw [hdc, update_self] at hd
          exact Or.inl (Option.some.inj hd).symm
        · exact Or.inr ⟨d, hdc, (hother _ d q hdc).mp hd⟩
    · dsimp only at hd he
      by_cases hdc : d = c
      · by_cases hec : e = c
        · rw [hdc, hec]
        · rw [hdc, update_self] at hd
          cases hd
          exact absurd ((hother _ e p hec).mp he) (hnone e hec)
      · by_cases hec : e = c
        · rw [hec, update_self] at he
          cases he
          exact absurd ((hother _ d p hdc).mp hd) (hnone d hdc)
        · exact h.inj d e q hdc hec ((hother _ d q hdc).mp hd) ((hother _ e q hec).mp he)

/-! ### Steps -/

theorem Runs.actor {a : Ptable.Act} (h : s.Runs c a) (ha : a.actor = some p) : s.proc c = some p := by
  cases a <;> first | cases ha; exact h | cases ha

theorem Runs.ne_dispatch {a : Ptable.Act} (h : s.Runs c a) (p : ProcIdx) : a ≠ .dispatch p := by
  rintro rfl
  exact h

theorem Apart.others {a : Ptable.Act} {t : Ptable} (h : Apart s) (hr : s.Runs c a) (ht : s.ptable.step a = .ok t)
    (hp : s.proc c ≠ some p) : (t.slot p).state = .running ↔ ∃ d, s.proc d = some p :=
  ((Ptable.step_turn h.toInv ht p).running_iff (fun ha => hp (hr.actor ha)) (hr.ne_dispatch p)).trans (h.running p)

theorem Apart.kernel [DecidableEq ι] {a : Ptable.Act} {t : Ptable} (h : Apart s) (hr : s.Runs c a) (ht : s.ptable.step a = .ok t) :
    (if ({ s with ptable := t } : Smp ι).Leaves c then ({ s with ptable := t } : Smp ι).resume c (s.loop c)
      else .ok { s with ptable := t }).Ensures Apart := by
  have hinv : Ptable.Inv t := h.toInv.step ht
  split
  · rename_i hleaves
    obtain ⟨q, hq, hstate⟩ := hleaves
    dsimp only at hq hstate
    refine Without.resume (s := { s with ptable := t }) ⟨hinv, fun p => ?_, fun d e p _ _ => h.inj d e p⟩ _
    dsimp only
    by_cases hp : p = q
    · subst hp
      refine ⟨fun hrun => absurd hrun hstate, fun ⟨d, hdc, hd⟩ => absurd (h.inj d c p hd hq) hdc⟩
    · have hne : s.proc c ≠ some p := fun he => hp (Option.some.inj (he.symm.trans hq))
      refine (h.others hr ht hne).trans ⟨fun ⟨d, hd⟩ => ⟨d, ?_, hd⟩, fun ⟨d, _, hd⟩ => ⟨d, hd⟩⟩
      rintro rfl
      exact hne hd
  · rename_i hstays
    refine ⟨hinv, fun p => ?_, h.inj⟩
    dsimp only
    by_cases hp : s.proc c = some p
    · refine ⟨fun _ => ⟨c, hp⟩, fun _ => ?_⟩
      by_contra hstate
      exact hstays ⟨p, hp, hstate⟩
    · exact h.others hr ht hp

theorem Apart.step [DecidableEq ι] {a : Act ι} (h : Apart s) (hs : s.step a = .ok s') : Apart s' := by
  suffices hstep : (s.step a).Ensures Apart from ensures_iff.mp hstep s' hs
  cases a with
  | start c =>
    rw [Smp.step]
    split
    · exact ⟨h.toInv, h.running, h.inj⟩
    · trivial
  | scheduler c =>
    rw [Smp.step]
    split
    · rename_i hc
      refine (ensures_true _).bind fun all _ => (ensures_true _).bind fun r _ => ?_
      have hw := h.without hc
      exact Without.resume (s := { s with next := r.2 }) ⟨hw.toInv, hw.running, hw.inj⟩ _
    · trivial
  | kernel c a =>
    rw [Smp.step]
    split
    · rename_i hr
      refine Outcome.Ensures.bind (ensures_iff.mpr fun t ht => ht) fun t ht => ?_
      exact h.kernel hr ht
    · trivial

theorem Apart.boot (ticks : UInt32) (beyond : Int) (loop : ι → DispatchLoop) : Apart (boot ticks beyond loop) where
  toInv := .boot ticks beyond
  running p := by
    constructor
    · intro hrun
      have hslot : (Smp.boot ticks beyond loop).ptable.slot p = if p = 0 then
        { state := .runnable, pid := 1, ntickets := 10, priority := 10, ctime := ticks } else {} := rfl
      rw [hslot] at hrun
      split at hrun <;> cases hrun
    · rintro ⟨c, hc⟩
      cases hc
  inj c d p hc := nomatch hc

/-- For any processors and any interleaving: a process is RUNNING iff it is the current process of exactly one processor,
    and no processor has a process that `wait` or `wait_stat` makes an empty slot of, neither before nor after that. -/
theorem one_cpu_each [DecidableEq ι]
    (h : Reachable step (fun _ _ => True) (fun s : Smp ι => ∃ ticks beyond loop, s = boot ticks beyond loop) s) :
    (∀ p, (s.ptable.slot p).state = .running ↔ ∃! c, s.proc c = some p) ∧
    ∀ a s', s.step a = .ok s' → ∀ p, (s.ptable.slot p).state = .zombie → (s'.ptable.slot p).state = .unused →
      ∀ c, s.proc c ≠ some p ∧ s'.proc c ≠ some p := by
  have hinv : Apart s := h.invariant (P := Apart) (fun _ ⟨ticks, beyond, loop, h⟩ => h ▸ .boot ticks beyond loop)
    fun _ _ _ h _ hs => h.step hs
  refine ⟨hinv.running_unique, fun a s' hs p hz hu c => ⟨fun hc => ?_, fun hc => ?_⟩⟩
  · have hrun := (hinv.running p).mpr ⟨c, hc⟩
    rw [hz] at hrun
    cases hrun
  · have hrun := ((hinv.step hs).running p).mpr ⟨c, hc⟩
    rw [hu] at hrun
    cases hrun

/-- On two processors: the child of the first process has run on the other one and is a zombie, and the first process
    waits for it. -/
theorem one_cpu_each_reaps : ∃ s s' : Smp Bool, (∃! c, s.proc c = some 0) ∧ s.step (.kernel false (.wait 0 (.wait false))) = .ok s' ∧
    (s.ptable.slot 1).state = .zombie ∧ (s'.ptable.slot 1).state = .unused ∧ ∀ c, s.proc c ≠ some 1 ∧ s'.proc c ≠ some 1 := by
  obtain ⟨s, hs, hrun, hz, s', hs', hu⟩ : ∃ s : Smp Bool, runList step (boot 0 0 fun _ => ⟨0, 0, []⟩) [.scheduler false,
      .scheduler false, .kernel false (.fork 0), .kernel false (.forkCopies 0), .kernel false (.forkEnds 0), .scheduler true,
      .kernel true (.exit 1 7)] = .ok s ∧ (s.ptable.slot 0).state = .running ∧ (s.ptable.slot 1).state = .zombie ∧
      ∃ s', s.step (.kernel false (.wait 0 (.wait false))) = .ok s' ∧ (s'.ptable.slot 1).state = .unused := by
    decide +kernel
  have h := one_cpu_each (.runList (fun _ _ => trivial) (.init ⟨0, 0, _, rfl⟩) hs)
  exact ⟨s, s', (h.1 0).mp hrun, hs', hz, hu, h.2 _ s' hs' 1 hz hu⟩

end Smp
end Xv6
