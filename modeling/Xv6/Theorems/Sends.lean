import Xv6.Lib.Bits
import Xv6.Sends
import Xv6.Theorems.Kill

/-! Whom `kill` and `sigsend` reach. Both take the first slot with the pid, whether a process uses it or not: a slot that
    is UNUSED keeps the pid 0 or that of a failed `fork`, and `allocproc` clears the pending signals but not `killed`. -/

namespace Xv6
open Function (update update_of_ne update_self)
open Machine
open Outcome (bind_eq_ok)

/-! ### Slots that no process uses -/

namespace Ptable
variable {s s' : Ptable} {a : Act} {i p : ProcIdx} {x y z : Slot}

def Slot.Idle (x : Slot) : Prop := x.state = .unused ∨ x.state = .embryo

/-- A slot that is idle and killed now was so before. -/
def Slot.Quiet (x y : Slot) : Prop := y.Idle → y.killed = true → x.Idle ∧ x.killed = true

theorem Slot.Quiet.refl (x : Slot) : x.Quiet x := fun hi hk => ⟨hi, hk⟩

theorem Slot.Quiet.busy (h : ¬y.Idle) : x.Quiet y := fun hi _ => absurd hi h

theorem Change.quiet (h : Change s a p x) (hnot : ∀ pid, a ≠ .kill pid) : (s.slot p).Quiet x := by
  cases h with
  | rest | moves | adopted | sets => exact fun hi hk => ⟨hi, hk⟩
  | wakes | dispatched | yields | sleeps | waits | born | dies => exact .busy (by simp [Slot.Idle])
  | allocated h => exact fun _ hk => ⟨.inl h, hk⟩
  | dropped h => exact fun _ hk => ⟨.inr h, hk⟩
  | reaped c => cases c <;> exact fun _ hk => nomatch hk
  | killed pid ha => exact absurd ha (hnot pid)
  | ticks =>
    unfold Slot.tick
    split <;> exact fun hi hk => ⟨hi, hk⟩

theorem step_quiet (hinv : Inv s) (hs : s.step a = .ok s') (hnot : ∀ pid, a ≠ .kill pid) (p : ProcIdx) :
    (s.slot p).Quiet (s'.slot p) := (step_change hinv hs p).quiet hnot

theorem kill_quiet {pid : UInt32} (h : ∀ p, s.target pid = some p → ¬(s.slot p).Idle) (p : ProcIdx) :
    (s.slot p).Quiet ((s.kill pid).slot p) := by
  have hslot : (s.kill pid).slot p = s.slot p ∨ _ := kill_slot s p
  rcases hslot with hsame | ⟨htarget, -⟩
  · rw [hsame]
    exact .refl _
  · have hst := kill_stirs s pid
    refine .busy fun hi => h p htarget ?_
    exact hi.imp (hst.slot p).unused.mp (hst.slot p).embryo.mp

end Ptable

namespace Sends
variable {s s' : Sends} {pid signum : UInt32} {p q np i : ProcIdx}

/-! ### One slot that is in use -/

abbrev Entry := Ptable.Slot × UInt32

def entry (s : Sends) (p : ProcIdx) : Entry := (s.table.slot p, s.pending p)

/-- A slot with the pid that is not UNUSED. -/
def Used (s : Sends) (pid : UInt32) (p : ProcIdx) : Prop := (s.table.slot p).pid = pid ∧ (s.table.slot p).state ≠ .unused

/-- The call returns 0 if a slot in use has the pid, and then it does its work in one such slot and nowhere else. -/
structure Exact (s : Sends) (pid : UInt32) (Done : Entry → Prop) (result : UInt32 × Sends) : Prop where
  zero : result.1 = 0 ↔ ∃ p, s.Used pid p
  one : (∃ p, s.Used pid p) → ∃ p, s.Used pid p ∧ Done (result.2.entry p) ∧ ∀ q, q ≠ p → result.2.entry q = s.entry q
  none : (¬∃ p, s.Used pid p) → ∀ q, result.2.entry q = s.entry q

/-- The call marks the first slot with the pid. -/
structure Marks (s : Sends) (pid : UInt32) (mark : Entry → Entry) (result : UInt32 × Sends) : Prop where
  missed : s.table.target pid = none → result.1 ≠ 0 ∧ result.2 = s
  found : ∀ p, s.table.target pid = some p →
    result.1 = 0 ∧ result.2.entry p = mark (s.entry p) ∧ ∀ q, q ≠ p → result.2.entry q = s.entry q

theorem target_pid (h : s.table.target pid = some p) : (s.table.slot p).pid = pid := by
  simpa using List.find?_some h

theorem target_none (h : s.table.target pid = none) : ¬∃ p, s.Used pid p := fun ⟨p, hp, _⟩ => by
  simpa [hp] using List.find?_eq_none.mp h p (List.mem_finRange p)

section Marks
variable {mark : Entry → Entry} {Done : Entry → Prop} {result : UInt32 × Sends}

theorem Marks.used (h : Marks s pid mark result) (hdone : ∀ x, Done (mark x)) (htarget : s.table.target pid = some p)
    (hused : (s.table.slot p).state ≠ .unused) : Exact s pid Done result := by
  obtain ⟨hres, hmark, hother⟩ := h.found p htarget
  have hp : s.Used pid p := ⟨target_pid htarget, hused⟩
  refine ⟨⟨fun _ => ⟨p, hp⟩, fun _ => hres⟩, fun _ => ⟨p, hp, ?_, hother⟩, fun hno => absurd ⟨p, hp⟩ hno⟩
  rw [hmark]
  exact hdone _

/-- If it is UNUSED, the call is exact only by chance: it finds everything done already. -/
theorem Marks.stray (h : Marks s pid mark result) (htarget : s.table.target pid = some p)
    (hstray : (s.table.slot p).state = .unused) :
    Exact s pid Done result ↔ mark (s.entry p) = s.entry p ∧ ∃ q, s.Used pid q ∧ Done (s.entry q) := by
  obtain ⟨hres, hmark, hother⟩ := h.found p htarget
  have hne : ∀ {q}, s.Used pid q → q ≠ p := by
    rintro q hq rfl
    exact hq.2 hstray
  constructor
  · intro hexact
    obtain ⟨q, hq, hdone, hothers⟩ := hexact.one (hexact.zero.mp hres)
    rw [hother q (hne hq)] at hdone
    exact ⟨hmark.symm.trans (hothers p (hne hq).symm), q, hq, hdone⟩
  · rintro ⟨hsame, q, hq, hdone⟩
    have hall : ∀ r, result.2.entry r = s.entry r := fun r => by
      by_cases hr : r = p
      · rw [hr, hmark, hsame]
      · exact hother r hr
    refine ⟨⟨fun _ => ⟨q, hq⟩, fun _ => hres⟩, fun _ => ⟨q, hq, ?_, fun r _ => hall r⟩, fun _ => hall⟩
    rwa [hall]

theorem Marks.exact_iff (h : Marks s pid mark result) (hdone : ∀ x, Done (mark x)) :
    Exact s pid Done result ↔ ∀ p, s.table.target pid = some p → (s.table.slot p).state = .unused →
      mark (s.entry p) = s.entry p ∧ ∃ q, s.Used pid q ∧ Done (s.entry q) := by
  cases htarget : s.table.target pid with
  | none =>
    obtain ⟨hres, hsame⟩ := h.missed htarget
    have hno := target_none htarget
    refine ⟨fun _ p hp => (nomatch hp), fun _ => ?_⟩
    refine ⟨⟨fun h0 => absurd h0 hres, fun hex => absurd hex hno⟩, fun hex => absurd hex hno, fun _ q => ?_⟩
    rw [hsame]
  | some p =>
    constructor
    · intro hexact q hq hstray
      cases hq
      exact (h.stray htarget hstray).mp hexact
    · intro hall
      by_cases hstray : (s.table.slot p).state = .unused
      · exact (h.stray htarget hstray).mpr (hall p rfl hstray)
      · exact h.used hdone htarget hstray

end Marks

def killMark (ticks : UInt32) (x : Entry) : Entry :=
  ({ x.1 with killed := true, ttime := ticks, state := if x.1.state = .sleeping then .runnable else x.1.state }, x.2)

theorem kill_marks (s : Sends) (pid : UInt32) : Marks s pid (killMark s.table.ticks) (s.kill pid) := by
  unfold Sends.kill
  constructor
  · intro hnone
    rw [show (List.finRange NPROC).find? (fun p => decide ((s.table.slot p).pid = pid)) = none from hnone]
    exact ⟨(fun h => nomatch h), rfl⟩
  · intro p hp
    have hp : (List.finRange NPROC).find? (fun p => decide ((s.table.slot p).pid = pid)) = some p := hp
    rw [hp]
    have hkill : s.table.kill pid = s.table.setSlot p (killMark s.table.ticks (s.entry p)).1 := by
      rw [Ptable.kill, hp]
      rfl
    refine ⟨rfl, ?_, fun q hq => ?_⟩
    · show ((s.table.kill pid).slot p, s.pending p) = _
      rw [hkill, Ptable.setSlot_self]
      rfl
    · show ((s.table.kill pid).slot q, s.pending q) = _
      rw [hkill, Ptable.setSlot_of_ne _ _ hq]
      rfl

def sigsendMark (signum : UInt32) (x : Entry) : Entry := (x.1, x.2 ||| (1 <<< signum))

theorem sigsend_marks (s : Sends) (pid : UInt32) (h : signum.toNat < NUMSIG) :
    Marks s pid (sigsendMark signum) (s.sigsend pid signum) := by
  unfold Sends.sigsend
  rw [if_neg (Nat.not_le.mpr h)]
  constructor
  · intro hnone
    rw [show (List.finRange NPROC).find? (fun p => decide ((s.table.slot p).pid = pid)) = none from hnone]
    exact ⟨(fun h => nomatch h), rfl⟩
  · intro p hp
    rw [show (List.finRange NPROC).find? (fun p => decide ((s.table.slot p).pid = pid)) = some p from hp]
    refine ⟨rfl, ?_, fun q hq => ?_⟩
    · exact Prod.ext rfl (update_self ..)
    · exact Prod.ext rfl (update_of_ne hq ..)

theorem killMark_eq {x : Entry} (hx : x.1.state = .unused) (ticks : UInt32) :
    killMark ticks x = x ↔ x.1.killed = true ∧ x.1.ttime = ticks := by
  rcases x with ⟨x, w⟩
  dsimp only at hx
  simp only [killMark, hx, reduceCtorEq, if_false]
  constructor
  · intro h
    have hslot := congrArg Prod.fst h
    exact ⟨(congrArg Ptable.Slot.killed hslot).symm, (congrArg Ptable.Slot.ttime hslot).symm⟩
  · rintro ⟨hk, ht⟩
    rw [← hk, ← ht, ← hx]

def Pends (signum : UInt32) (x : Entry) : Prop := Bits.Has x.2 (Fin.ofNat 32 signum.toNat)

theorem ofNat_bit (h : signum.toNat < NUMSIG) : UInt32.ofNat (Fin.ofNat 32 signum.toNat : Fin 32) = signum := by
  have hmod : (Fin.ofNat 32 signum.toNat : Fin 32).val = signum.toNat := Nat.mod_eq_of_lt h
  rw [hmod, UInt32.ofNat_toNat]

theorem pends_sigsendMark (h : signum.toNat < NUMSIG) (x : Entry) : Pends signum (sigsendMark signum x) := by
  have hset := (Bits.has_set (w := x.2) (i := Fin.ofNat 32 signum.toNat)).mpr (.inr rfl)
  rwa [ofNat_bit h] at hset

theorem sigsendMark_eq {x : Entry} (h : signum.toNat < NUMSIG) : sigsendMark signum x = x ↔ Pends signum x := by
  constructor
  · intro hsame
    rw [← hsame]
    exact pends_sigsendMark h x
  · intro hpends
    refine Prod.ext rfl ?_
    show x.2 ||| (1 <<< signum) = x.2
    have hset : ∀ j, Bits.Has (x.2 ||| (1 <<< signum)) j ↔ Bits.Has x.2 j := fun j => by
      have hset := Bits.has_set (w := x.2) (i := Fin.ofNat 32 signum.toNat) (j := j)
      rw [ofNat_bit h] at hset
      rw [hset, or_iff_left_iff_imp]
      rintro rfl
      exact hpends
    exact Bits.ext hset

/-! ### How a child starts -/

def Booted (s : Sends) : Prop := ∃ ticks beyond, s = { table := Ptable.boot ticks beyond }

/-- No `kill` finds a slot that no process uses yet. -/
def Careful (s : Sends) : Act → Prop
  | .kill pid => ∀ p, s.table.target pid = some p → ¬(s.table.slot p).Idle
  | _ => True

/-- The signals that are pending have all been sent to the pid. -/
def Due (pending sent : UInt32) : Prop := ∀ n, Bits.Has pending n → Bits.Has sent n

structure Inv (s : Sends) : Prop where
  table : s.table.Inv
  fresh : ∀ p, (s.table.slot p).Idle → (s.table.slot p).killed = false
  due : ∀ p, Due (s.pending p) (s.sent p)
  started : ∀ x ∈ s.started, x.killed = false ∧ Due x.pending x.sent

theorem Inv.boot (h : Booted s) : Inv s := by
  obtain ⟨ticks, beyond, rfl⟩ := h
  refine ⟨.boot ticks beyond, fun p _ => ?_, fun p n hn => absurd hn (Bits.not_has_zero n), fun x hx => absurd hx List.not_mem_nil⟩
  show (if p = 0 then _ else _ : Ptable.Slot).killed = false
  split <;> rfl

theorem Inv.move {t : Ptable} (h : Inv s) (ht : t.Inv) (hquiet : ∀ p, (s.table.slot p).Quiet (t.slot p)) :
    Inv { s with table := t } where
  table := ht
  fresh p hi := Bool.eq_false_iff.mpr fun hk => by
    obtain ⟨hidle, hkilled⟩ := hquiet p hi hk
    exact nomatch (h.fresh p hidle).symm.trans hkilled
  due := h.due
  started := h.started

theorem Inv.tableStep {t : Ptable} {a : Ptable.Act} (h : Inv s) (hs : s.table.step a = .ok t) (hnot : ∀ pid, a ≠ .kill pid) :
    Inv { s with table := t } :=
  h.move (h.table.step hs) (Ptable.step_quiet h.table hs hnot)

theorem Inv.setDefaultHandlers (h : Inv s) (np : ProcIdx) : Inv (s.setDefaultHandlers np) where
  table := h.table
  fresh := h.fresh
  due p n hn := by
    by_cases hp : p = np
    · subst hp
      have hzero : (s.setDefaultHandlers p).pending p = 0 := update_self ..
      rw [hzero] at hn
      exact absurd hn (Bits.not_has_zero n)
    · have hpending : (s.setDefaultHandlers np).pending p = s.pending p := update_of_ne hp ..
      have hsent : (s.setDefaultHandlers np).sent p = s.sent p := update_of_ne hp ..
      rw [hpending] at hn
      rw [hsent]
      exact h.due p n hn
  started := h.started

theorem Inv.forkEnds {t : Ptable} (h : Inv s) (hpc : (s.table.slot i).pc = .copied np) (hs : s.table.step (.forkEnds i) = .ok t) :
    (t.slot np).killed = false := by
  have hembryo := (h.table.embryo i np (.inr hpc)).1
  have hkilled := h.fresh np (.inr hembryo)
  have hlulls := Ptable.step_lulls h.table hs (fun _ => Ptable.Act.noConfusion) np
  exact Bool.eq_false_iff.mpr fun hk => nomatch hkilled.symm.trans (hlulls.killed hk)

theorem Inv.kill (h : Inv s) (hcareful : Careful s (.kill pid)) : Inv (s.kill pid).2 := by
  unfold Sends.kill
  split
  · exact h
  · exact h.move (h.table.step (a := .kill pid) rfl) (Ptable.kill_quiet hcareful)

theorem Inv.sigsend (h : Inv s) (pid signum : UInt32) : Inv (s.sigsend pid signum).2 := by
  unfold Sends.sigsend
  split
  · exact h
  · rename_i hvalid
    split
    · exact h
    · rename_i p hp
      have hpid : (s.table.slot p).pid = pid := target_pid hp
      refine ⟨h.table, h.fresh, fun q n hn => ?_, h.started⟩
      dsimp only at hn ⊢
      have hbit : ∀ w, Bits.Has (w ||| (1 <<< signum)) n ↔ Bits.Has w n ∨ Fin.ofNat 32 signum.toNat = n := fun w => by
        have hset := Bits.has_set (w := w) (i := Fin.ofNat 32 signum.toNat) (j := n)
        rwa [ofNat_bit (Nat.not_le.mp hvalid)] at hset
      by_cases hq : q = p
      · subst hq
        rw [update_self, hbit] at hn
        rw [if_pos hpid, hbit]
        exact hn.imp_left (h.due q n)
      · rw [update_of_ne hq] at hn
        split
        · exact (hbit _).mpr (.inl (h.due q n hn))
        · exact h.due q n hn

theorem Inv.deliver (h : Inv s) (i : ProcIdx) (signum : Fin 32) :
    Inv { s with pending := update s.pending i (s.pending i &&& ~~~(1 <<< UInt32.ofNat signum)) } := by
  refine ⟨h.table, h.fresh, fun q n hn => ?_, h.started⟩
  dsimp only at hn
  by_cases hq : q = i
  · subst hq
    rw [update_self, Bits.has_clear] at hn
    exact h.due q n hn.1
  · rw [update_of_ne hq] at hn
    exact h.due q n hn

theorem Inv.step {a : Act} (h : Inv s) (hcareful : Careful s a) (hs : s.step a = .ok s') : Inv s' := by
  cases a with
  | kill pid =>
    cases hs
    exact h.kill hcareful
  | sigsend pid signum =>
    cases hs
    exact h.sigsend pid signum
  | deliver i =>
    unfold Sends.step at hs
    dsimp only at hs
    split at hs
    · split at hs <;> cases hs
      · exact h
      · exact h.deliver i _
    · cases hs
  | table a =>
    cases a with
    | kill pid => cases hs
    | fork i =>
      obtain ⟨t, ht, hrest⟩ := bind_eq_ok.mp hs
      have hmoved := h.tableStep ht fun _ => Ptable.Act.noConfusion
      split at hrest <;> cases hrest
      · exact hmoved.setDefaultHandlers _
      · exact hmoved
    | forkEnds i =>
      obtain ⟨t, ht, hrest⟩ := bind_eq_ok.mp hs
      have hmoved := h.tableStep ht fun _ => Ptable.Act.noConfusion
      split at hrest <;> cases hrest
      · rename_i np hpc
        refine ⟨hmoved.table, hmoved.fresh, hmoved.due, fun x hx => ?_⟩
        rcases List.mem_cons.mp hx with rfl | hx
        · exact ⟨h.forkEnds hpc ht, h.due np⟩
        · exact h.started x hx
      · exact hmoved
    | forkFails i | forkCopies i | exit i status | wait i c | waitAgain i | sleep i addr | wakeup addr | yield i | dispatch i
    | tick | schedp policy | priority i priority =>
      obtain ⟨t, ht, hrest⟩ := bind_eq_ok.mp hs
      cases hrest
      exact h.tableStep ht fun _ => Ptable.Act.noConfusion

/-- `kill` and a valid `sigsend` are exact, whatever the table is, if and only if the first slot with the pid is not UNUSED,
    chance apart; and in every run whose kills find no slot that is UNUSED or EMBRYO every child that `fork` returns starts
    unkilled, with no signal pending that has not been sent to its pid. -/
theorem kill_sigsend_exact_iff (s : Sends) :
    (∀ pid : UInt32, Exact s pid (fun x => x.1.killed = true) (s.kill pid) ↔
      ∀ p, s.table.target pid = some p → (s.table.slot p).state = .unused →
        ((s.table.slot p).killed = true ∧ (s.table.slot p).ttime = s.table.ticks) ∧
        ∃ q, s.Used pid q ∧ (s.table.slot q).killed = true) ∧
    (∀ pid signum : UInt32, signum.toNat < NUMSIG →
      (Exact s pid (Pends signum) (s.sigsend pid signum) ↔
        ∀ p, s.table.target pid = some p → (s.table.slot p).state = .unused →
          Pends signum (s.entry p) ∧ ∃ q, s.Used pid q ∧ Pends signum (s.entry q))) ∧
    (Reachable step Careful Booted s → ∀ x ∈ s.started, x.killed = false ∧ Due x.pending x.sent) := by
  refine ⟨fun pid => ?_, fun pid signum h => ?_, fun hs => ?_⟩
  · rw [(kill_marks s pid).exact_iff fun _ => rfl]
    refine forall₃_congr fun p _ hunused => and_congr_left' ?_
    exact killMark_eq hunused _
  · rw [(sigsend_marks s pid h).exact_iff (pends_sigsendMark h)]
    refine forall₃_congr fun p _ _ => and_congr_left' ?_
    exact sigsendMark_eq h
  · have hinv : Inv s := hs.invariant (P := Inv) (fun _ h => .boot h) fun _ _ _ h hc hs => h.step hc hs
    exact hinv.started

def Act.spares : Act → Bool
  | .kill _ => false
  | _ => true

/-- The first process can be killed and get signal 3; a child to which signal 5 is sent in the middle of `fork` starts with
    it. -/
theorem first_process_killed :
    Exact { table := Ptable.boot 0 0 } 1 (fun x => x.1.killed = true) (Sends.kill { table := Ptable.boot 0 0 } 1) ∧
    Exact { table := Ptable.boot 0 0 } 1 (Pends 3) (Sends.sigsend { table := Ptable.boot 0 0 } 1 3) ∧
    ∃ s, Reachable step Careful Booted s ∧
      ∃ x ∈ s.started, x.pid = 2 ∧ x.pending = 32 ∧ x.killed = false ∧ Due x.pending x.sent := by
  have htarget : ∀ p : ProcIdx, (Ptable.boot 0 0).target 1 = some p → ((Ptable.boot 0 0).slot p).state ≠ .unused := by
    decide +kernel
  refine ⟨?_, ?_, ?_⟩
  · exact ((kill_sigsend_exact_iff _).1 _).mpr fun p hp hunused => absurd hunused (htarget p hp)
  · exact ((kill_sigsend_exact_iff _).2.1 _ _ (by decide)).mpr fun p hp hunused => absurd hunused (htarget p hp)
  · obtain ⟨s, hrun, x, hx, htest⟩ : ∃ s, runList (fun s a => if a.spares then step s a else .sleep) { table := Ptable.boot 0 0 }
        [.table (.dispatch 0), .table (.fork 0), .table (.forkCopies 0), .sigsend 2 5, .table (.forkEnds 0)] = .ok s ∧
        ∃ x ∈ s.started, x.pid = 2 ∧ x.pending = 32 := by
      decide +kernel
    have hcareful : ∀ (s : Sends) (a : Act), a.spares = true → Careful s a := fun s a ha => by
      cases a with
      | kill pid => exact nomatch ha
      | table a | sigsend pid signum | deliver i => trivial
    have hs : Reachable step Careful Booted s := .runGuarded (g := fun _ a => a.spares) hcareful (.init ⟨0, 0, rfl⟩) hrun
    exact ⟨s, hs, x, hx, htest.1, htest.2, (kill_sigsend_exact_iff s).2.2 hs x hx⟩

/-- Right after boot `kill(0)` returns 0, though no slot in use has the pid 0, and marks slot 1; the next child that `fork`
    returns is in that slot and starts killed. -/
theorem kill_zero_hits_next_child :
    (Sends.kill { table := Ptable.boot 0 0 } 0).1 = 0 ∧ (¬∃ p, Sends.Used { table := Ptable.boot 0 0 } 0 p) ∧
    ((Sends.kill { table := Ptable.boot 0 0 } 0).2.table.slot 1).killed = true ∧
    ∃ s, Reachable step (fun _ _ => True) Booted s ∧ ∃ x ∈ s.started, x.pid = 2 ∧ x.killed = true := by
  refine ⟨by decide +kernel, ?_, by decide +kernel, ?_⟩
  · rintro ⟨p, hpid, hstate⟩
    have hnone : ∀ p : ProcIdx, ((Ptable.boot 0 0).slot p).pid = 0 → ((Ptable.boot 0 0).slot p).state = .unused := by
      decide +kernel
    exact hstate (hnone p hpid)
  · obtain ⟨s, hrun, x, hx, htest⟩ : ∃ s, runList step { table := Ptable.boot 0 0 }
        [.table (.dispatch 0), .kill 0, .table (.fork 0), .table (.forkCopies 0), .table (.forkEnds 0)] = .ok s ∧
        ∃ x ∈ s.started, x.pid = 2 ∧ x.killed = true := by
      decide +kernel
    exact ⟨s, .runList (fun _ _ => trivial) (.init ⟨0, 0, rfl⟩) hrun, x, hx, htest⟩

end Sends
end Xv6
