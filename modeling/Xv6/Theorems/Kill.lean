import Xv6.Kill
import Xv6.Theorems.PtableSteps

/-! When a kill is slept through: `sleep` is called with the pipe's lock or `tickslock` held, and between the test of
    `killed` under that lock and the change to SLEEPING under `ptable.lock` a kill finds the process running. -/

namespace Xv6
open Function (update update_of_ne update_self)
open Outcome (bind_eq_ok)
open Machine

/-! ### Which steps of the table put a process to sleep -/

namespace Ptable
variable {s s' t : Ptable} {a : Act} {i p : ProcIdx}

/-- The process has not been killed meanwhile, has not gone to sleep, and is at the same point. -/
structure Slot.Calm (x y : Slot) : Prop where
  killed : y.killed = true → x.killed = true
  asleep : y.state = .sleeping → x.state = .sleeping
  pc : y.pc = x.pc

theorem Slot.Calm.refl (x : Slot) : x.Calm x := ⟨fun h => h, fun h => h, rfl⟩

theorem calm_wakeup1 (s : Ptable) (c : Chan) (p : ProcIdx) : (s.slot p).Calm ((s.wakeup1 c).slot p) := by
  show Slot.Calm _ (if _ then _ else _)
  split
  · exact ⟨id, (fun h => nomatch h), rfl⟩
  · exact .refl _

/-- What a step other than `kill` can do to a process: nothing, or it puts itself to sleep where it is not killed, or in
    another function than `wait`. -/
inductive Lulls (a : Act) (p : ProcIdx) (x y : Slot) : Prop
  | calm (h : x.Calm y)
  | moves (ha : a.caller = some p) (hk : y.killed = x.killed) (hs : y.state ≠ .sleeping)
  | renewed (h : x.state = .unused) (hk : y.killed = x.killed) (hs : y.state ≠ .sleeping) (hpc : y.pc = .user)
  | waits (ha : a.caller = some p) (hk : y.killed = false)
  | sleeps (ha : a.caller = some p) (hk : y.killed = x.killed) (hpc : y.pc = .user)

theorem Change.lulls {x : Slot} (h : Change s a p x) (hnot : ∀ pid, a ≠ .kill pid) : Lulls a p (s.slot p) x := by
  cases h with
  | rest | adopted | sets => exact .calm ⟨id, id, rfl⟩
  | wakes | dispatched | yields | dropped | born | dies => exact .calm ⟨id, (fun h => nomatch h), rfl⟩
  | moves ha h => exact .moves ha rfl fun hs => nomatch h.symm.trans hs
  | sleeps addr ha hat => exact .sleeps (ha ▸ rfl) rfl hat.2
  | waits c ha h hk => exact .waits ha hk
  | allocated h => exact .renewed h rfl (fun h => nomatch h) rfl
  | reaped c => cases c <;> exact .calm ⟨(fun h => nomatch h), (fun h => nomatch h), rfl⟩
  | killed pid ha => exact absurd ha (hnot pid)
  | ticks =>
    unfold Slot.tick
    split <;> exact .calm ⟨id, id, rfl⟩

theorem step_lulls (h : Inv s) (hs : s.step a = .ok s') (hnot : ∀ pid, a ≠ .kill pid) (p : ProcIdx) :
    Lulls a p (s.slot p) (s'.slot p) := (step_change h hs p).lulls hnot

theorem Lulls.killed {x y : Slot} (h : Lulls a p x y) (hy : y.killed = true) : x.killed = true := by
  cases h with
  | calm h => exact h.killed hy
  | moves _ hk _ | renewed _ hk _ _ | sleeps _ hk _ => exact hk ▸ hy
  | waits _ hk => exact nomatch hk.symm.trans hy

theorem sleep_eq {addr : Nat} (h : s.step (.sleep i addr) = .ok t) :
    t = s.setSlot i { s.slot i with chan := some (.other addr), state := .sleeping } := by
  unfold Ptable.step at h
  dsimp only at h
  split at h <;> cases h
  rfl

theorem wakeup1_awake (s : Ptable) (c : Chan) {p : ProcIdx} (h : (s.slot p).state ≠ .sleeping) : (s.wakeup1 c).slot p = s.slot p :=
  if_neg fun hp => h hp.1

theorem kill_slot {pid : UInt32} (s : Ptable) (p : ProcIdx) :
    (s.kill pid).slot p = s.slot p ∨ s.target pid = some p ∧ ((s.kill pid).slot p).state ≠ .sleeping := by
  unfold Ptable.kill
  split
  · exact .inl rfl
  · rename_i q hq
    by_cases hp : p = q
    · subst hp
      refine .inr ⟨hq, ?_⟩
      rw [setSlot_self]
      dsimp only
      split
      · exact fun h => nomatch h
      · assumption
    · exact .inl (setSlot_of_ne s _ hp)

theorem kill_target {pid : UInt32} {s : Ptable} {p : ProcIdx} (h : s.target pid = some p) (hp : (s.slot p).state ≠ .sleeping) :
    (s.kill pid).slot p = { s.slot p with killed := true, ttime := s.ticks } := by
  have h : (List.finRange NPROC).find? (fun p => (s.slot p).pid = pid) = some p := h
  rw [Ptable.kill, h]
  dsimp only
  rw [setSlot_self, if_neg hp]

end Ptable

/-! ### Places -/

namespace Kill
open Pipe (Pc)
variable {s s' t : Kill} {a : Act} {i j : ProcIdx} {x : Place}

/-- The process has found that it is not killed, and is about to take `ptable.lock` to go to sleep. -/
def Place.tested : Place → Bool
  | .pipe _ (.readSleep _) | .pipe _ (.writeWakeup ..) | .pipe _ (.writeSleep ..) | .napSleep .. => true
  | _ => false

def Place.dozes : Place → Bool
  | .pipe _ (.readDoze _) | .pipe _ (.writeDoze ..) | .napDoze .. => true
  | _ => false

theorem Place.locked_of_tested (h : x.tested = true) : x.locked = true := by
  unfold tested at h
  split at h <;> first | rfl | cases h

theorem Place.locked_of_dozes (h : x.dozes = true) : x.locked = true := by
  unfold dozes at h
  split at h <;> first | rfl | cases h

theorem Place.inside_of_locked (h : x.locked = true) : x.outside = false := by
  unfold outside
  split
  · cases h
  · rfl

/-- A process that holds a lock runs, one in the code of a pipe or in `sys_sleep` is at no other point, and `ptable.lock`
    is held between two steps by the process in `sleep`. -/
structure Inv (s : Kill) : Prop where
  table : s.table.Inv
  running : ∀ i, (s.place i).locked = true → (s.table.slot i).state = .running
  user : ∀ i, (s.place i).outside = false → (s.table.slot i).pc = .user
  doze : ∀ i, (s.place i).dozes = true → s.ptable = some i

/-- No process that is about to sleep, or asleep, in one of the functions is killed. -/
structure Heard (s : Kill) : Prop where
  awake : ∀ i, (s.place i).tested = true ∨ (s.place i).dozes = true → (s.table.slot i).killed = false
  asleep : ∀ i, (s.table.slot i).state = .sleeping → s.Inside i → (s.table.slot i).killed = false

/-- Process `i` goes on to `x`; it may wake others, and takes `ptable.lock` if it is to sleep. -/
structure Moves (s s' : Kill) (i : ProcIdx) (x : Place) : Prop where
  table : s'.table = s.table ∨ ∃ addr, s'.table = s.table.wakeup1 (.other addr)
  place : s'.place = update s.place i x
  ptable : s'.ptable = if x.dozes then some i else s.ptable
  free : x.dozes = true → s.ptable = none

inductive Ran (s s' : Kill) (i : ProcIdx) : Prop
  | moves (x : Place) (h : Moves s s' i x) (hin : (s.place i).outside = false) (hawake : (s.place i).dozes = false)
      (htest : x.tested = true ∨ x.dozes = true → (s.table.slot i).killed = false ∨ (s.place i).tested = true)
  | sleeps (addr : Nat) (x : Place) (table : Ptable) (hdoze : (s.place i).dozes = true)
      (h : s.table.step (.sleep i addr) = .ok table) (hx : x.locked = false)
      (hs : s' = { s with table := table, ptable := none }.setPlace i x)

theorem Ran.sleep {addr : Nat} (hdoze : (s.place i).dozes = true) (hx : x.locked = false) (h : s.sleep i addr x = .ok s') :
    Ran s s' i := by
  obtain ⟨table, htable, h⟩ := bind_eq_ok.mp h
  cases h
  exact .sleeps addr x table hdoze htable hx rfl

theorem Ran.stays (hin : (s.place i).outside = false) (hawake : (s.place i).dozes = false) (hx : x.dozes = false)
    (htest : x.tested = true → (s.table.slot i).killed = false) (htable : s'.table = s.table)
    (hplace : s'.place = update s.place i x) (hptable : s'.ptable = s.ptable) : Ran s s' i := by
  refine .moves x ⟨.inl htable, hplace, by rw [hptable, hx]; rfl, fun h => ?_⟩ hin hawake fun h => ?_
  · rw [hx] at h
    cases h
  · rcases h with h | h
    · exact .inl (htest h)
    · rw [hx] at h
      cases h

theorem Ran.wakes {addr : Nat} (hin : (s.place i).outside = false) (hawake : (s.place i).dozes = false) (hx : x.dozes = false)
    (htest : x.tested = true → (s.place i).tested = true) (hw : s.wakeup addr = .ok t) (htable : s'.table = t.table)
    (hplace : s'.place = update t.place i x) (hptable : s'.ptable = t.ptable) : Ran s s' i := by
  unfold Kill.wakeup at hw
  split at hw
  · cases hw
    refine .moves x ⟨.inr ⟨addr, htable⟩, hplace, by rw [hptable, hx]; rfl, fun h => ?_⟩ hin hawake fun h => ?_
    · rw [hx] at h
      cases h
    · rcases h with h | h
      · exact .inr (htest h)
      · rw [hx] at h
        cases h
  · cases hw

theorem Ran.acquire {k : Nat} {pc : Pc} (hin : (s.place i).outside = false) (hawake : (s.place i).dozes = false)
    (hx : (Place.pipe k pc).dozes = false) (htest : (Place.pipe k pc).tested = false) (h : s.acquire i k pc = .ok t)
    (htable : s'.table = t.table) (hplace : s'.place = t.place) (hptable : s'.ptable = t.ptable) : Ran s s' i := by
  unfold Kill.acquire at h
  split at h
  · cases h
    refine .stays hin hawake hx (fun h => ?_) htable hplace hptable
    rw [htest] at h
    cases h
  · cases h

theorem Ran.of_runPipe {k : Nat} {pc : Pc} (hpc : s.place i = .pipe k pc) (h : s.runPipe i k pc = .ok s') : Ran s s' i := by
  have hin : (s.place i).outside = false := by rw [hpc]; rfl
  unfold Kill.runPipe at h
  split at h
  · cases h
  · exact .acquire hin (by rw [hpc]; rfl) rfl rfl h rfl rfl rfl
  · have hawake : (s.place i).dozes = false := by rw [hpc]; rfl
    split at h
    · split at h
      · cases h
        exact .stays hin hawake (x := .elsewhere) rfl (fun h => nomatch h) rfl rfl rfl
      · rename_i hk
        cases h
        exact .stays hin hawake (x := .pipe k (.readSleep _)) rfl (fun _ => Bool.eq_false_iff.mpr hk) rfl rfl rfl
    · cases h
      exact .stays hin hawake (x := .pipe k (.readWakeup _)) rfl (fun h => nomatch h) rfl rfl rfl
  · split at h
    · rename_i hfree
      cases h
      refine .moves (.pipe k (.readDoze _)) ⟨.inl rfl, rfl, rfl, fun _ => hfree⟩ hin (by rw [hpc]; rfl) fun _ => .inr ?_
      rw [hpc]
      rfl
    · cases h
  · exact .sleep (by rw [hpc]; rfl) rfl h
  · obtain ⟨t, hw, h⟩ := bind_eq_ok.mp h
    cases h
    exact .wakes hin (by rw [hpc]; rfl) (x := .elsewhere) rfl (fun h => nomatch h) hw rfl rfl rfl
  · exact .acquire hin (by rw [hpc]; rfl) rfl rfl h rfl rfl rfl
  · have hawake : (s.place i).dozes = false := by rw [hpc]; rfl
    dsimp only at h
    split at h
    · cases h
      exact .stays hin hawake (x := .pipe k (.writeDone _)) rfl (fun h => nomatch h) rfl rfl rfl
    · split at h
      · cases h
        exact .stays hin hawake (x := .elsewhere) rfl (fun h => nomatch h) rfl rfl rfl
      · rename_i hk
        cases h
        rw [not_or] at hk
        exact .stays hin hawake (x := .pipe k (.writeWakeup _ _)) rfl (fun _ => Bool.eq_false_iff.mpr hk.2) rfl rfl rfl
  · obtain ⟨t, hw, h⟩ := bind_eq_ok.mp h
    cases h
    exact .wakes hin (by rw [hpc]; rfl) (x := .pipe k (.writeSleep _ _)) rfl (fun _ => by rw [hpc]; rfl) hw rfl rfl rfl
  · split at h
    · rename_i hfree
      cases h
      refine .moves (.pipe k (.writeDoze _ _)) ⟨.inl rfl, rfl, rfl, fun _ => hfree⟩ hin (by rw [hpc]; rfl) fun _ => .inr ?_
      rw [hpc]
      rfl
    · cases h
  · exact .sleep (by rw [hpc]; rfl) rfl h
  · obtain ⟨t, hw, h⟩ := bind_eq_ok.mp h
    cases h
    exact .wakes hin (by rw [hpc]; rfl) (x := .elsewhere) rfl (fun h => nomatch h) hw rfl rfl rfl
  · dsimp only at h
    obtain ⟨t, hw, h⟩ := bind_eq_ok.mp h
    cases h
    exact .acquire hin (by rw [hpc]; rfl) rfl rfl hw rfl rfl rfl
  · obtain ⟨t, hw, h⟩ := bind_eq_ok.mp h
    cases h
    exact .wakes hin (by rw [hpc]; rfl) (x := .elsewhere) rfl (fun h => nomatch h) hw rfl rfl rfl

theorem Ran.of_run (h : s.run i = .ok s') : Ran s s' i := by
  unfold Kill.run at h
  split at h
  · cases h
  · rename_i k pc hpc
    exact .of_runPipe hpc h
  · rename_i n hpc
    have hin : (s.place i).outside = false := by rw [hpc]; rfl
    split at h <;> cases h
    exact .stays hin (by rw [hpc]; rfl) (x := .napLoop _ _) rfl (fun h => nomatch h) rfl rfl rfl
  · rename_i ticks0 n hpc
    have hin : (s.place i).outside = false := by rw [hpc]; rfl
    have hawake : (s.place i).dozes = false := by rw [hpc]; rfl
    split at h <;> cases h
    · rename_i hk
      exact .stays hin hawake (x := .napSleep _ _) rfl (fun _ => hk.2) rfl rfl rfl
    · exact .stays hin hawake (x := .elsewhere) rfl (fun h => nomatch h) rfl rfl rfl
  · rename_i ticks0 n hpc
    have hin : (s.place i).outside = false := by rw [hpc]; rfl
    split at h <;> cases h
    rename_i hfree
    refine .moves (.napDoze _ _) ⟨.inl rfl, rfl, rfl, fun _ => hfree⟩ hin (by rw [hpc]; rfl) fun _ => .inr ?_
    rw [hpc]
    rfl
  · rename_i ticks0 n hpc
    exact .sleep (by rw [hpc]; rfl) rfl h
  · rename_i ticks0 n hpc
    have hin : (s.place i).outside = false := by rw [hpc]; rfl
    split at h <;> cases h
    exact .stays hin (by rw [hpc]; rfl) (x := .napLoop _ _) rfl (fun h => nomatch h) rfl rfl rfl

/-! ### Invariants -/

theorem Moves.calm (h : Moves s s' i x) (j : ProcIdx) : (s.table.slot j).Calm (s'.table.slot j) := by
  rcases h.table with ht | ⟨addr, ht⟩
  · rw [ht]
    exact .refl _
  · rw [ht]
    exact Ptable.calm_wakeup1 _ _ j

theorem Moves.running (h : Moves s s' i x) (hj : (s.table.slot j).state = .running) : (s'.table.slot j).state = .running := by
  rcases h.table with ht | ⟨addr, ht⟩
  · rwa [ht]
  · rw [ht]
    show (if _ then _ else _ : Ptable.Slot).state = _
    rw [if_neg fun hs => nomatch hs.1.symm.trans hj]
    exact hj

theorem Moves.place_of_ne (h : Moves s s' i x) (hj : j ≠ i) : s'.place j = s.place j := by
  rw [h.place, update_of_ne hj]

theorem Moves.place_self (h : Moves s s' i x) : s'.place i = x := by rw [h.place, update_self]

theorem free_caller {b : Ptable.Act} (h : s.free b = true) (hb : b.caller = some i) : (s.place i).outside = true := by
  cases b <;> cases hb <;> exact h

theorem not_locked_of_actor {b : Ptable.Act} (h : s.free b = true) (hb : b.actor = some i) : (s.place i).locked = false := by
  by_contra hl
  have hin := Place.inside_of_locked (Bool.eq_true_of_not_eq_false hl)
  cases b with
  | yield j =>
    cases hb
    simp only [Kill.free, Bool.not_eq_true'] at h
    exact hl h
  | fork | forkFails | forkCopies | forkEnds | exit | wait | waitAgain | sleep | priority =>
    cases hb
    exact nomatch hin.symm.trans h
  | wakeup | dispatch | kill | tick | schedp => cases hb

theorem Call.start_place (c : Call) : c.start.locked = false ∧ c.start.tested = false ∧ c.start.dozes = false := by
  cases c <;> exact ⟨rfl, rfl, rfl⟩

theorem Inv.table_step {b : Ptable.Act} {table : Ptable} (h : Inv s) (hfree : s.free b = true)
    (hs : s.table.step b = .ok table) : Inv { s with table := table } := by
  refine ⟨h.table.step hs, fun i hl => ?_, fun i hin => ?_, h.doze⟩
  · have hrun := h.running i hl
    have hactor : b.actor ≠ some i := fun hb => nomatch (not_locked_of_actor hfree hb).symm.trans hl
    have hturn := Ptable.step_turn h.table hs i
    have hview : (table.slot i).view.state = .running := by
      generalize (table.slot i).view = v at hturn
      cases hturn with
      | rest => exact hrun
      | wakes hst | dispatched _ hst | allocated hst | dropped hst | born _ hst | reaped hst _ => exact nomatch hst.symm.trans hrun
      | yields ha _ => exact absurd (ha ▸ rfl) hactor
      | sleeps ha _ | dies ha _ => exact absurd ha hactor
      | sets _ ha _ => exact absurd (ha ▸ rfl) hactor
    exact hview
  · have hpc := h.user i hin
    have hcaller : b.caller ≠ some i := fun hb => nomatch hin.symm.trans (free_caller hfree hb)
    cases b with
    | kill pid =>
      cases hs
      exact (Ptable.kill_pc s.table pid i).trans hpc
    | fork | forkFails | forkCopies | forkEnds | exit | wait | waitAgain | sleep | priority | yield | wakeup | dispatch | tick | schedp =>
      cases Ptable.step_lulls h.table hs (fun _ h => nomatch h) i with
      | calm hc => exact hc.pc.trans hpc
      | moves ha _ _ | waits ha _ | sleeps ha _ _ => exact absurd ha hcaller
      | renewed _ _ _ hpc' => exact hpc'

theorem Inv.run (h : Inv s) (hi : (s.table.slot i).state = .running) (hr : Ran s s' i) : Inv s' := by
  cases hr with
  | moves x hm hin hawake _ =>
    refine ⟨?_, fun j hl => ?_, fun j hj => ?_, fun j hj => ?_⟩
    · rcases hm.table with ht | ⟨addr, ht⟩
      · rw [ht]
        exact h.table
      · rw [ht]
        exact h.table.step (a := .wakeup addr) rfl
    · by_cases hji : j = i
      · exact hji ▸ hm.running hi
      · rw [hm.place_of_ne hji] at hl
        exact hm.running (h.running j hl)
    · rw [(hm.calm j).pc]
      by_cases hji : j = i
      · exact hji ▸ h.user i hin
      · rw [hm.place_of_ne hji] at hj
        exact h.user j hj
    · by_cases hji : j = i
      · rw [hji, hm.place_self] at hj
        rw [hm.ptable, if_pos hj, hji]
      · rw [hm.place_of_ne hji] at hj
        have hptable := h.doze j hj
        by_cases hx : x.dozes = true
        · exact nomatch (hm.free hx).symm.trans hptable
        · rw [hm.ptable, if_neg hx, hptable]
  | sleeps addr x table hdoze ht hx hs =>
    subst hs
    have hother : ∀ j, j ≠ i → ({ s with table := table, ptable := none }.setPlace i x).place j = s.place j := fun j hj =>
      update_of_ne hj _ _
    have hself : ({ s with table := table, ptable := none }.setPlace i x).place i = x := update_self ..
    have htable := Ptable.sleep_eq ht
    refine ⟨h.table.step ht, fun j hl => ?_, fun j hj => ?_, fun j hj => ?_⟩
    · by_cases hji : j = i
      · rw [hji, hself, hx] at hl
        cases hl
      · have hl : (s.place j).locked = true := hother j hji ▸ hl
        show (table.slot j).state = _
        rw [htable, Ptable.setSlot_of_ne _ _ hji]
        exact h.running j hl
    · show (table.slot j).pc = _
      by_cases hji : j = i
      · rw [hji, htable, Ptable.setSlot_self]
        exact h.user i (Place.inside_of_locked (Place.locked_of_dozes hdoze))
      · rw [htable, Ptable.setSlot_of_ne _ _ hji]
        exact h.user j (hother j hji ▸ hj)
    · by_cases hji : j = i
      · rw [hji, hself] at hj
        exact nomatch hx.symm.trans (Place.locked_of_dozes hj)
      · have hj := h.doze j (hother j hji ▸ hj)
        exact absurd (Option.some.inj (hj.symm.trans (h.doze i hdoze))) hji

theorem Inv.step (h : Inv s) (hs : s.step a = .ok s') : Inv s' := by
  unfold Kill.step at hs
  cases a with
  | table b =>
    dsimp only at hs
    split at hs
    · rename_i hok
      obtain ⟨table, ht, hs⟩ := bind_eq_ok.mp hs
      cases hs
      exact h.table_step hok.1 ht
    · cases hs
  | call i c =>
    dsimp only at hs
    split at hs <;> cases hs
    rename_i hok
    obtain ⟨hlocked, -, hdozes⟩ := c.start_place
    have hother : ∀ j, j ≠ i → (s.setPlace i c.start).place j = s.place j := fun j hj => update_of_ne hj _ _
    have hself : (s.setPlace i c.start).place i = c.start := update_self ..
    refine ⟨h.table, fun j hl => ?_, fun j hj => ?_, fun j hj => ?_⟩
    · by_cases hji : j = i
      · rw [hji, hself, hlocked] at hl
        cases hl
      · exact h.running j (hother j hji ▸ hl)
    · by_cases hji : j = i
      · exact hji ▸ hok.1.2
      · exact h.user j (hother j hji ▸ hj)
    · by_cases hji : j = i
      · rw [hji, hself, hdozes] at hj
        cases hj
      · exact h.doze j (hother j hji ▸ hj)
  | run i =>
    dsimp only at hs
    split at hs
    · rename_i hi
      exact h.run hi (.of_run hs)
    · cases hs

theorem Inv.boot (h : s.Booted) : Inv s := by
  obtain ⟨ticks, beyond, pipe, rfl⟩ := h
  exact ⟨.boot ticks beyond, (fun _ h => nomatch h), (fun _ h => nomatch h), fun _ h => nomatch h⟩

/-! ### Kills that are heard -/

/-- No kill finds its process between the test of `killed` and `ptable.lock`. -/
def Heeds (s : Kill) : Act → Prop
  | .table (.kill pid) => ∀ i, s.table.target pid = some i → (s.place i).tested = false
  | _ => True

instance (s : Kill) : DecidablePred s.Heeds
  | .table (.kill pid) => inferInstanceAs (Decidable (∀ i, s.table.target pid = some i → (s.place i).tested = false))
  | .table (.fork _) | .table (.forkFails _) | .table (.forkCopies _) | .table (.forkEnds _) | .table (.exit ..)
  | .table (.wait ..) | .table (.waitAgain _) | .table (.sleep ..) | .table (.wakeup _) | .table (.yield _)
  | .table (.dispatch _) | .table .tick | .table (.schedp _) | .table (.priority ..) | .call .. | .run _ =>
    inferInstanceAs (Decidable True)

theorem Heard.table_step {b : Ptable.Act} {table : Ptable} (hi : Inv s) (h : Heard s) (hfree : s.free b = true)
    (hs : s.table.step b = .ok table) (hnot : ∀ pid, b ≠ .kill pid) : Heard { s with table := table } := by
  have hlulls := Ptable.step_lulls hi.table hs hnot
  have hkeep : ∀ i, (s.table.slot i).killed = false → (table.slot i).killed = false := fun i hk =>
    Bool.eq_false_iff.mpr fun hk' => nomatch hk.symm.trans ((hlulls i).killed hk')
  refine ⟨fun i hi => hkeep i (h.awake i hi), fun i hs' hin => ?_⟩
  have hs' : (table.slot i).state = .sleeping := hs'
  cases hlulls i with
  | calm hc =>
    refine hkeep i (h.asleep i (hc.asleep hs') ?_)
    rcases hin with hin | ⟨c, hin⟩
    · exact .inl hin
    · exact .inr ⟨c, hc.pc ▸ hin⟩
  | moves _ _ hst => exact absurd hs' hst
  | renewed _ _ hst _ => exact absurd hs' hst
  | waits _ hk => exact hk
  | sleeps ha _ hpc =>
    -- asleep in another function
    rcases hin with hin | ⟨c, hin⟩
    · exact nomatch (free_caller hfree ha).symm.trans hin
    · exact nomatch hpc.symm.trans hin

theorem Heard.kill {pid : UInt32} (hi : Inv s) (h : Heard s) (hlock : s.ptable = none) (hg : s.Heeds (.table (.kill pid))) :
    Heard { s with table := s.table.kill pid } := by
  refine ⟨fun i htest => ?_, fun i hst hin => ?_⟩
  · show ((s.table.kill pid).slot i).killed = false
    rcases Ptable.kill_slot s.table i with heq | ⟨htarget, -⟩
    · rw [heq]
      exact h.awake i htest
    · rcases htest with htest | hdoze
      · exact nomatch (hg i htarget).symm.trans htest
      · exact nomatch hlock.symm.trans (hi.doze i hdoze)
  · have hst : ((s.table.kill pid).slot i).state = .sleeping := hst
    have hin : (s.place i).outside = false ∨ ∃ c, ((s.table.kill pid).slot i).pc = .waiting c := hin
    show ((s.table.kill pid).slot i).killed = false
    rcases Ptable.kill_slot s.table i with heq | ⟨-, hno⟩
    · rw [heq] at hst hin ⊢
      exact h.asleep i hst hin
    · exact absurd hst hno

theorem Heard.run (h : Heard s) (hi : (s.table.slot i).state = .running) (hr : Ran s s' i) : Heard s' := by
  cases hr with
  | moves x hm hin hawake htest =>
    have hkeep : ∀ j, (s.table.slot j).killed = false → (s'.table.slot j).killed = false := fun j hk =>
      Bool.eq_false_iff.mpr fun hk' => nomatch hk.symm.trans ((hm.calm j).killed hk')
    refine ⟨fun j hj => hkeep j ?_, fun j hst hin' => hkeep j ?_⟩
    · by_cases hji : j = i
      · rw [hji, hm.place_self] at hj
        rw [hji]
        exact (htest hj).elim id fun ht => h.awake i (.inl ht)
      · rw [hm.place_of_ne hji] at hj
        exact h.awake j hj
    · have hst := (hm.calm j).asleep hst
      have hji : j ≠ i := by
        rintro rfl
        exact nomatch hi.symm.trans hst
      refine h.asleep j hst ?_
      rcases hin' with hin' | ⟨c, hc⟩
      · exact .inl (hm.place_of_ne hji ▸ hin')
      · exact .inr ⟨c, (hm.calm j).pc ▸ hc⟩
  | sleeps addr x table hdoze ht hx hs =>
    subst hs
    have hother : ∀ j, j ≠ i → ({ s with table := table, ptable := none }.setPlace i x).place j = s.place j := fun j hj =>
      update_of_ne hj _ _
    have hself : ({ s with table := table, ptable := none }.setPlace i x).place i = x := update_self ..
    have htable := Ptable.sleep_eq ht
    refine ⟨fun j hj => ?_, fun j hst hin => ?_⟩
    · by_cases hji : j = i
      · rw [hji, hself] at hj
        have hl : x.locked = true := hj.elim Place.locked_of_tested Place.locked_of_dozes
        exact nomatch hx.symm.trans hl
      · rw [hother j hji] at hj
        show (table.slot j).killed = false
        rw [htable, Ptable.setSlot_of_ne _ _ hji]
        exact h.awake j hj
    · show (table.slot j).killed = false
      by_cases hji : j = i
      · rw [hji, htable, Ptable.setSlot_self]
        exact h.awake i (.inr hdoze)
      · have hslot : table.slot j = s.table.slot j := by rw [htable, Ptable.setSlot_of_ne _ _ hji]
        have hst : (table.slot j).state = .sleeping := hst
        rw [hslot] at hst ⊢
        refine h.asleep j hst ?_
        rcases hin with hin | ⟨c, hc⟩
        · exact .inl (hother j hji ▸ hin)
        · have hc : (table.slot j).pc = .waiting c := hc
          exact .inr ⟨c, hslot ▸ hc⟩

theorem Heard.step (hi : Inv s) (h : Heard s) (hg : s.Heeds a) (hs : s.step a = .ok s') : Heard s' := by
  unfold Kill.step at hs
  cases a with
  | table b =>
    dsimp only at hs
    split at hs
    · rename_i hok
      obtain ⟨table, ht, hs⟩ := bind_eq_ok.mp hs
      cases hs
      by_cases hk : ∃ pid, b = .kill pid
      · obtain ⟨pid, rfl⟩ := hk
        cases ht
        exact h.kill hi hok.2 hg
      · exact h.table_step hi hok.1 ht fun pid hb => hk ⟨pid, hb⟩
    · cases hs
  | call i c =>
    dsimp only at hs
    split at hs <;> cases hs
    rename_i hok
    obtain ⟨-, htested, hdozes⟩ := c.start_place
    have hother : ∀ j, j ≠ i → (s.setPlace i c.start).place j = s.place j := fun j hj => update_of_ne hj _ _
    have hself : (s.setPlace i c.start).place i = c.start := update_self ..
    refine ⟨fun j hj => ?_, fun j hst hin => ?_⟩
    · by_cases hji : j = i
      · rw [hji, hself, htested, hdozes] at hj
        exact hj.elim (fun h => nomatch h) fun h => nomatch h
      · exact h.awake j (hother j hji ▸ hj)
    · have hji : j ≠ i := by
        rintro rfl
        exact nomatch hok.1.1.symm.trans hst
      refine h.asleep j hst ?_
      rcases hin with hin | hin
      · exact .inl (hother j hji ▸ hin)
      · exact .inr hin
  | run i =>
    dsimp only at hs
    split at hs
    · rename_i hi'
      exact h.run hi' (.of_run hs)
    · cases hs

theorem Heard.boot (h : s.Booted) : Heard s := by
  obtain ⟨ticks, beyond, pipe, rfl⟩ := h
  constructor
  · intro i hi
    exact hi.elim (fun h => nomatch h) fun h => nomatch h
  · intro i hst _
    have hst : ((if i = 0 then _ else _ : Ptable.Slot)).state = .sleeping := hst
    split at hst <;> cases hst

theorem Heard.not_sleepsThrough (h : Heard s) : ¬s.SleepsThrough := by
  rintro ⟨-, i, hk, hst, hin⟩
  exact nomatch (h.asleep i hst hin).symm.trans hk

theorem reachable_inv {guard : Kill → Act → Prop} (h : Reachable Kill.step guard Kill.Booted s) : Inv s :=
  h.invariant (fun _ h => .boot h) fun _ _ _ hi _ hs => hi.step hs

/-! ### Kills that are slept through -/

theorem sleeps_off (addr : Nat) (hi : (s.table.slot i).state = .running) (hu : (s.table.slot i).pc = .user)
    (hk : (s.table.slot i).killed = true) (hx : x.outside = false) : ∃ u, s.sleep i addr x = .ok u ∧ u.SleepsThrough := by
  refine ⟨_, by rw [Kill.sleep, Ptable.step, if_pos ⟨hi, hu⟩]; rfl, rfl, i, ?_, ?_, .inl ?_⟩
  · show ((s.table.setSlot i _).slot i).killed = true
    rw [Ptable.setSlot_self]
    exact hk
  · show ((s.table.setSlot i _).slot i).state = .sleeping
    rw [Ptable.setSlot_self]
  · show (update s.place i x i).outside = false
    rw [update_self]
    exact hx

/-- The process runs on, and nothing else happens. -/
abbrev Alone (i : ProcIdx) (t : Kill) : Kill → Prop := Reachable Kill.step (fun _ a => a = .run i) (· = t)

theorem Alone.next {u : Kill} (h : Alone i t s) (hi : (s.table.slot i).state = .running) (hr : s.run i = .ok u) : Alone i t u :=
  .step (.run i) h rfl (by rw [Kill.step, if_pos hi, hr])

theorem Alone.sleeps (ht : Alone i t s) (mid : Kill) (addr : Nat) (x : Place) (hi : (s.table.slot i).state = .running)
    (hu : (s.table.slot i).pc = .user) (hk : (s.table.slot i).killed = true) (hrun : s.run i = .ok mid)
    (hmid : mid.table = s.table) (hsleep : mid.run i = mid.sleep i addr x) (hx : x.outside = false) :
    ∃ u, Alone i t u ∧ u.SleepsThrough := by
  rw [← hmid] at hu hk
  obtain ⟨u, hu', hs⟩ := sleeps_off addr (hmid ▸ hi) hu hk hx
  exact ⟨u, (ht.next hi hrun).next (hmid ▸ hi) (hsleep.trans hu'), hs⟩

theorem Alone.falls_asleep (ht : Alone i t s) (hi : (s.table.slot i).state = .running) (hu : (s.table.slot i).pc = .user)
    (hk : (s.table.slot i).killed = true) (hlock : s.ptable = none) (htest : (s.place i).tested = true) :
    ∃ u, Alone i t u ∧ u.SleepsThrough := by
  have hwrite : ∀ {s : Kill} {k rest n}, Alone i t s → (s.table.slot i).state = .running → (s.table.slot i).pc = .user →
      (s.table.slot i).killed = true → s.ptable = none → s.place i = .pipe k (.writeSleep rest n) →
      ∃ u, Alone i t u ∧ u.SleepsThrough := by
    intro s k rest n ht hi hu hk hlock hp
    refine ht.sleeps ({ s with ptable := some i, lock := update s.lock k none }.setPlace i (.pipe k (.writeDoze rest n)))
      (chanAddr k .nwrite) (.pipe k (.writeAcquire rest n)) hi hu hk ?_ rfl ?_ rfl
    · simp only [Kill.run, hp, Kill.runPipe, hlock, if_true]
    · simp only [Kill.run, Kill.setPlace, update_self, Kill.runPipe]
  unfold Place.tested at htest
  split at htest
  · rename_i k n hp
    refine ht.sleeps ({ s with ptable := some i, lock := update s.lock k none }.setPlace i (.pipe k (.readDoze n)))
      (chanAddr k .nread) (.pipe k (.readAcquire n)) hi hu hk ?_ rfl ?_ rfl
    · simp only [Kill.run, hp, Kill.runPipe, hlock, if_true]
    · simp only [Kill.run, Kill.setPlace, update_self, Kill.runPipe]
  · rename_i k rest n hp
    have hrun : s.run i = .ok ({ s with table := s.table.wakeup1 (.other (chanAddr k .nread)) }.setPlace i (.pipe k (.writeSleep rest n))) := by
      simp only [Kill.run, hp, Kill.runPipe, Kill.wakeup, hlock, if_true]
      rfl
    have hslot := Ptable.wakeup1_awake s.table (.other (chanAddr k .nread)) (p := i) (by rw [hi]; exact fun h => nomatch h)
    exact hwrite (ht.next hi hrun) ((congrArg _ hslot).trans hi) ((congrArg _ hslot).trans hu)
      ((congrArg _ hslot).trans hk) hlock (update_self ..)
  · rename_i k rest n hp
    exact hwrite ht hi hu hk hlock hp
  · rename_i ticks0 n hp
    refine ht.sleeps ({ s with ptable := some i, tickslock := none }.setPlace i (.napDoze ticks0 n))
      ticksAddr (.napReacquire ticks0 n) hi hu hk ?_ rfl ?_ rfl
    · simp only [Kill.run, hp, hlock, if_true]
    · simp only [Kill.run, Kill.setPlace, update_self]
  · cases htest

/-- A kill that comes in the window is slept through, whatever it interrupts. -/
theorem late_kill_slept_through {pid : UInt32} (hi : Inv s) (hg : ¬s.Heeds (.table (.kill pid)))
    (hs : s.step (.table (.kill pid)) = .ok t) : ∃ i u, Alone i t u ∧ u.SleepsThrough := by
  simp only [Heeds, Classical.not_forall, Bool.not_eq_false] at hg
  obtain ⟨i, htarget, htest⟩ := hg
  have hlocked := Place.locked_of_tested htest
  have hrunning := hi.running i hlocked
  have hslot := Ptable.kill_target htarget (by rw [hrunning]; exact fun h => nomatch h)
  rw [Kill.step] at hs
  split at hs
  · rename_i hok
    cases hs
    exact ⟨i, Alone.falls_asleep (.init rfl) ((congrArg _ hslot).trans hrunning)
      ((congrArg _ hslot).trans (hi.user i (Place.inside_of_locked hlocked))) (congrArg _ hslot) hok.2 htest⟩
  · cases hs

/-- No kill is slept through in the runs in which no `kill` finds its process between its test of `killed` and its
    `acquire(&ptable.lock)`; in any run, a `kill` that does is slept through as soon as the process goes on. -/
theorem kill_slept_through_iff (s : Kill) :
    (Reachable Kill.step Heeds Kill.Booted s → ¬s.SleepsThrough) ∧
    ∀ t pid, Reachable Kill.step (fun _ _ => True) Kill.Booted s → ¬s.Heeds (.table (.kill pid)) →
      s.step (.table (.kill pid)) = .ok t → ∃ i u, Alone i t u ∧ u.SleepsThrough := by
  refine ⟨fun hs => ?_, fun t pid hs hg ht => late_kill_slept_through (reachable_inv hs) hg ht⟩
  have h : Inv s ∧ Heard s := hs.invariant (P := fun s => Inv s ∧ Heard s) (fun s h => ⟨.boot h, .boot h⟩)
    fun s a s' h hg hs => ⟨h.1.step hs, h.2.step h.1 hg hs⟩
  exact h.2.not_sleepsThrough

/-- The first process has a child and calls `sys_sleep`. -/
def nap : List Act :=
  [.table (.dispatch 0), .table (.fork 0), .table (.forkCopies 0), .table (.forkEnds 0), .call 0 (.sysSleep 5), .run 0, .run 0]

def bare : Kill where
  table := Ptable.boot 0 0
  pipe _ := Pipe.alloc fun _ => 0

/-- Killed when it sleeps, it runs again. -/
theorem kill_wakes_sleeper : ∃ s : Kill, (s.table.slot 0).killed = true ∧ (s.table.slot 0).state = .runnable ∧ ¬s.SleepsThrough := by
  obtain ⟨s, hs, hk, hst⟩ : ∃ s, runList (fun s a => if decide (s.Heeds a) then s.step a else .sleep) bare
      (nap ++ [.run 0, .run 0, .table (.kill 1)]) = .ok s ∧ (s.table.slot 0).killed = true ∧ (s.table.slot 0).state = .runnable := by
    decide +kernel
  have hreach : Reachable Kill.step Heeds Kill.Booted s :=
    .runGuarded (fun _ _ ha => of_decide_eq_true ha) (.init ⟨0, 0, _, rfl⟩) hs
  exact ⟨s, hk, hst, (kill_slept_through_iff s).1 hreach⟩

/-- Killed on its way to `sleep`, it sleeps. -/
theorem kill_before_sleep : ∃ s : Kill, Reachable Kill.step (fun _ _ => True) Kill.Booted s ∧ s.SleepsThrough := by
  obtain ⟨s, hs, hlock, hk, hst, hin⟩ : ∃ s, runList Kill.step bare (nap ++ [.table (.kill 1), .run 0, .run 0]) = .ok s ∧ s.ptable = none ∧
      (s.table.slot 0).killed = true ∧ (s.table.slot 0).state = .sleeping ∧ (s.place 0).outside = false := by
    decide +kernel
  exact ⟨s, .runList (fun _ _ => trivial) (.init ⟨0, 0, _, rfl⟩) hs, hlock, 0, hk, hst, .inl hin⟩

end Kill
end Xv6
