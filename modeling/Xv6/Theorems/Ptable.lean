import Xv6.Ptable

/-! Every exit is reaped at most once, with its own pid and status, by the parent or by init; parents are alive; and nobody
    sleeps in `wait` who has a child to reap. -/

namespace Xv6
namespace Ptable
variable {s s' : Ptable} {a : Act} {i p q np : ProcIdx}

theorem live_iff {st : ProcState} : st.Live ↔ st = .runnable ∨ st = .running ∨ st = .sleeping := by
  cases st <;> simp [ProcState.Live]

@[simp] theorem setSlot_self (s : Ptable) (i : ProcIdx) (x : Slot) : (s.setSlot i x).slot i = x := Function.update_self ..

theorem setSlot_of_ne (s : Ptable) (x : Slot) (h : p ≠ i) : (s.setSlot i x).slot p = s.slot p := Function.update_of_ne h ..

/-- The process is there, and not in the making. -/
def Slot.Alive (x : Slot) : Prop := x.state.Live ∨ x.state = .zombie

/-- The process is in `fork`, with this slot. -/
def Pc.Forks (pc : Pc) (np : ProcIdx) : Prop := pc = .allocated np ∨ pc = .copied np

/-- The numbers of the processes that have called `exit`, and of those that have been reaped. -/
def exited (s : Ptable) : List Nat := s.exits.map (·.id)

def reaped (s : Ptable) : List Nat := s.reaps.map (·.child)

/-- The process that made the child, or init if that has exited. -/
def Answers (s : Ptable) (id forker : Nat) : Prop := id = forker ∨ id = (s.slot s.initproc).id ∧ forker ∈ s.exited

structure Forking (s : Ptable) : Prop where
  embryo : ∀ i np, (s.slot i).pc.Forks np →
    (s.slot np).state = .embryo ∧ (s.slot i).state.Live ∧ (s.slot i).id < (s.slot np).id
  copied : ∀ i np, (s.slot i).pc = .copied np → (s.slot np).parent = some i
  unique : ∀ i j np, (s.slot i).pc.Forks np → (s.slot j).pc.Forks np → i = j

/-- Who is whose parent, and who has been reaped. -/
structure Family (s : Ptable) : Prop where
  init : (s.slot s.initproc).state.Live
  parent : ∀ p, (s.slot p).Alive → p ≠ s.initproc →
    ∃ q, (s.slot p).parent = some q ∧ (s.slot q).state.Live ∧ s.Answers (s.slot q).id (s.slot p).forker
  older : ∀ p, (s.slot p).Alive → p ≠ s.initproc → (s.slot p).forker < (s.slot p).id
  id_lt : ∀ p, (s.slot p).state ≠ .unused → (s.slot p).id < s.births
  id_inj : ∀ p q, (s.slot p).state ≠ .unused → (s.slot q).state ≠ .unused → (s.slot p).id = (s.slot q).id → p = q
  exit_lt : ∀ e ∈ s.exits, e.id < s.births
  not_exited : ∀ p, (s.slot p).state.Live ∨ (s.slot p).state = .embryo → (s.slot p).id ∉ s.exited
  zombie : ∀ p, (s.slot p).state = .zombie →
    ⟨(s.slot p).id, (s.slot p).pid, (s.slot p).status, (s.slot p).forker⟩ ∈ s.exits ∧ (s.slot p).id ∉ s.reaped
  exits : s.exited.Nodup
  reaps : s.reaped.Nodup
  reap : ∀ r ∈ s.reaps, ∃ e ∈ s.exits, e.id = r.child ∧ r.pid = e.pid ∧
    r.status = (if r.call = .wait false then none else some e.status) ∧ s.Answers r.reaper e.forker
  wait : ∀ p q, (s.slot q).state = .sleeping → (s.slot q).chan = some (.proc q) → (s.slot p).parent = some q →
    (s.slot p).state ≠ .zombie

/-! ### Steps that only stir live processes -/

/-- A slot is as it was, except for what no parent cares for; a live process stays live. -/
structure Slot.Stirs (x y : Slot) : Prop where
  state : y.state = x.state ∨ x.state.Live ∧ y.state.Live
  pid : y.pid = x.pid
  status : y.status = x.status
  id : y.id = x.id
  forker : y.forker = x.forker

namespace Slot.Stirs
variable {x y z : Slot}

theorem refl (x : Slot) : x.Stirs x := ⟨Or.inl rfl, rfl, rfl, rfl, rfl⟩

theorem trans (h : x.Stirs y) (h' : y.Stirs z) : x.Stirs z := by
  refine ⟨?_, h'.pid.trans h.pid, h'.status.trans h.status, h'.id.trans h.id, h'.forker.trans h.forker⟩
  rcases h'.state with e' | ⟨l', l''⟩
  · rw [e']
    exact h.state
  · rcases h.state with e | ⟨l, -⟩
    · exact Or.inr ⟨e ▸ l', l''⟩
    · exact Or.inr ⟨l, l''⟩

theorem live (h : x.Stirs y) : y.state.Live ↔ x.state.Live := by
  rcases h.state with e | ⟨l, l'⟩
  · rw [e]
  · exact ⟨fun _ => l, fun _ => l'⟩

theorem state_iff (h : x.Stirs y) {st : ProcState} (hst : ¬st.Live) : y.state = st ↔ x.state = st := by
  rcases h.state with e | ⟨l, l'⟩
  · rw [e]
  · constructor
    · rintro rfl
      exact absurd l' hst
    · rintro rfl
      exact absurd l hst

theorem zombie (h : x.Stirs y) : y.state = .zombie ↔ x.state = .zombie := h.state_iff fun h => h

theorem embryo (h : x.Stirs y) : y.state = .embryo ↔ x.state = .embryo := h.state_iff fun h => h

theorem unused (h : x.Stirs y) : y.state = .unused ↔ x.state = .unused := h.state_iff fun h => h

theorem alive (h : x.Stirs y) : y.Alive ↔ x.Alive := or_congr h.live h.zombie

end Slot.Stirs

structure Stirs (s s' : Ptable) : Prop where
  slot : ∀ p, (s.slot p).Stirs (s'.slot p)
  parent : ∀ p, (s'.slot p).parent = (s.slot p).parent
  initproc : s'.initproc = s.initproc
  births : s'.births = s.births
  exits : s'.exits = s.exits
  reaps : s'.reaps = s.reaps

theorem Stirs.refl (s : Ptable) : Stirs s s := ⟨fun _ => .refl _, fun _ => rfl, rfl, rfl, rfl, rfl⟩

theorem Stirs.setSlot {x : Slot} (h : (s.slot i).Stirs x) (hparent : x.parent = (s.slot i).parent) : Stirs s (s.setSlot i x) := by
  refine ⟨fun p => ?_, fun p => ?_, rfl, rfl, rfl, rfl⟩
  · by_cases hp : p = i
    · subst hp
      rw [setSlot_self]
      exact h
    · rw [setSlot_of_ne s x hp]
      exact .refl _
  · by_cases hp : p = i
    · subst hp
      rw [setSlot_self]
      exact hparent
    · rw [setSlot_of_ne s x hp]

theorem Stirs.answers (h : Stirs s s') {id forker : Nat} (ha : s.Answers id forker) : s'.Answers id forker := by
  unfold Answers exited at *
  rw [h.initproc, h.exits, (h.slot s.initproc).id]
  exact ha

theorem Family.stirs (h : Family s) (hs : Stirs s s')
    (hwait : ∀ p q, (s'.slot q).state = .sleeping → (s'.slot q).chan = some (.proc q) → (s'.slot p).parent = some q →
      (s'.slot p).state ≠ .zombie) : Family s' where
  init := by
    rw [hs.initproc, (hs.slot _).live]
    exact h.init
  parent p hp hne := by
    obtain ⟨q, hq, hl, ha⟩ := h.parent p ((hs.slot p).alive.mp hp) (hs.initproc ▸ hne)
    refine ⟨q, (hs.parent p).trans hq, (hs.slot q).live.mpr hl, ?_⟩
    rw [(hs.slot q).id, (hs.slot p).forker]
    exact hs.answers ha
  older p hp hne := by
    rw [(hs.slot p).forker, (hs.slot p).id]
    exact h.older p ((hs.slot p).alive.mp hp) (hs.initproc ▸ hne)
  id_lt p hp := by
    rw [(hs.slot p).id, hs.births]
    exact h.id_lt p (mt (hs.slot p).unused.mpr hp)
  id_inj p q hp hq he := by
    rw [(hs.slot p).id, (hs.slot q).id] at he
    exact h.id_inj p q (mt (hs.slot p).unused.mpr hp) (mt (hs.slot q).unused.mpr hq) he
  exit_lt e he := by
    rw [hs.exits] at he
    rw [hs.births]
    exact h.exit_lt e he
  not_exited p hp := by
    rw [(hs.slot p).id, exited, hs.exits]
    exact h.not_exited p (hp.imp (hs.slot p).live.mp (hs.slot p).embryo.mp)
  zombie p hp := by
    rw [(hs.slot p).id, (hs.slot p).pid, (hs.slot p).status, (hs.slot p).forker, hs.exits, reaped, hs.reaps]
    exact h.zombie p ((hs.slot p).zombie.mp hp)
  exits := by
    rw [exited, hs.exits]
    exact h.exits
  reaps := by
    rw [reaped, hs.reaps]
    exact h.reaps
  reap r hr := by
    rw [hs.reaps] at hr
    obtain ⟨e, he, hid, hpid, hstatus, ha⟩ := h.reap r hr
    exact ⟨e, hs.exits ▸ he, hid, hpid, hstatus, hs.answers ha⟩
  wait := hwait

def NoneWaits (s s' : Ptable) : Prop :=
  ∀ q, (s'.slot q).state = .sleeping → (s'.slot q).chan = some (.proc q) → (s.slot q).state = .sleeping ∧ (s.slot q).chan = some (.proc q)

theorem NoneWaits.setSlot {x : Slot} (h : x.state = .sleeping → x.chan = some (.proc i) → (s.slot i).state = .sleeping ∧
    (s.slot i).chan = some (.proc i)) : NoneWaits s (s.setSlot i x) := by
  intro q hq hc
  by_cases hqi : q = i
  · subst hqi
    rw [setSlot_self] at hq hc
    exact h hq hc
  · rw [setSlot_of_ne s x hqi] at hq hc
    exact ⟨hq, hc⟩

theorem Family.rest (h : Family s) (hs : Stirs s s') (hn : NoneWaits s s') : Family s' :=
  h.stirs hs fun p q hq hc hp => by
    obtain ⟨hq', hc'⟩ := hn q hq hc
    rw [hs.parent p] at hp
    exact mt (hs.slot p).zombie.mp (h.wait p q hq' hc' hp)

theorem wakeup1_stirs (s : Ptable) (c : Chan) : Stirs s (s.wakeup1 c) := by
  refine ⟨fun p => ?_, fun p => ?_, rfl, rfl, rfl, rfl⟩
  · show (s.slot p).Stirs (if _ then _ else _)
    split
    · rename_i hs
      exact ⟨Or.inr ⟨hs.1 ▸ trivial, trivial⟩, rfl, rfl, rfl, rfl⟩
    · exact .refl _
  · show (if _ then _ else _ : Slot).parent = _
    split <;> rfl

theorem wakeup1_sleeping (s : Ptable) (c : Chan) (q : ProcIdx) (hq : ((s.wakeup1 c).slot q).state = .sleeping) :
    (s.wakeup1 c).slot q = s.slot q ∧ (s.slot q).chan ≠ some c := by
  have hslot : (s.wakeup1 c).slot q = if (s.slot q).state = .sleeping ∧ (s.slot q).chan = some c then
    { s.slot q with state := .runnable } else s.slot q := rfl
  rw [hslot] at hq ⊢
  split at hq
  · cases hq
  · rename_i hno
    exact ⟨if_neg hno, fun hc => hno ⟨hq, hc⟩⟩

theorem wakeup1_noneWaits (s : Ptable) (c : Chan) : NoneWaits s (s.wakeup1 c) := fun q hq hc => by
  have heq := (wakeup1_sleeping s c q hq).1
  rw [heq] at hq hc
  exact ⟨hq, hc⟩

theorem wakeup1_pc (s : Ptable) (c : Chan) (p : ProcIdx) : ((s.wakeup1 c).slot p).pc = (s.slot p).pc := by
  show (if _ then _ else _ : Slot).pc = _
  split <;> rfl

theorem Slot.tick_same (x : Slot) : x.tick.state = x.state ∧ x.tick.chan = x.chan ∧ x.tick.pc = x.pc ∧ x.tick.parent = x.parent := by
  unfold tick
  split <;> exact ⟨rfl, rfl, rfl, rfl⟩

theorem tick_stirs (s : Ptable) : Stirs s { s with ticks := s.ticks + 1, slot := fun p => (s.slot p).tick } := by
  refine ⟨fun p => ?_, fun p => (s.slot p).tick_same.2.2.2, rfl, rfl, rfl, rfl⟩
  show (s.slot p).Stirs (s.slot p).tick
  unfold Slot.tick
  split
  all_goals exact ⟨Or.inl rfl, rfl, rfl, rfl, rfl⟩

theorem kill_stirs (s : Ptable) (pid : UInt32) : Stirs s (s.kill pid) := by
  unfold kill
  split
  · exact .refl s
  · rename_i p _
    refine Stirs.setSlot ⟨?_, rfl, rfl, rfl, rfl⟩ rfl
    by_cases hp : (s.slot p).state = .sleeping
    · rw [if_pos hp, hp]
      exact Or.inr ⟨trivial, trivial⟩
    · rw [if_neg hp]
      exact Or.inl rfl

theorem kill_noneWaits (s : Ptable) (pid : UInt32) : NoneWaits s (s.kill pid) := by
  unfold kill
  split
  · exact fun q hq hc => ⟨hq, hc⟩
  · rename_i p _
    refine NoneWaits.setSlot fun hs hc => ⟨?_, hc⟩
    by_contra hp
    dsimp only at hs
    rw [if_neg hp] at hs
    exact hp hs

theorem kill_pc (s : Ptable) (pid : UInt32) (p : ProcIdx) : ((s.kill pid).slot p).pc = (s.slot p).pc := by
  unfold kill
  split
  · rfl
  · rename_i q _
    by_cases hp : p = q
    · subst hp
      rw [setSlot_self]
    · rw [setSlot_of_ne s _ hp]

/-! ### `fork` -/

theorem Forking.keep (h : Forking s) (hpc : ∀ p, (s'.slot p).pc = (s.slot p).pc ∨ ∀ np, ¬(s'.slot p).pc.Forks np)
    (hkeep : ∀ i np, (s.slot i).pc.Forks np → (s'.slot i).pc.Forks np → (s'.slot np).state = .embryo ∧ (s'.slot i).state.Live ∧
      (s'.slot i).id = (s.slot i).id ∧ (s'.slot np).id = (s.slot np).id ∧
      ((s.slot i).pc = .copied np → (s'.slot np).parent = some i)) : Forking s' := by
  have hback : ∀ i np, (s'.slot i).pc.Forks np → (s'.slot i).pc = (s.slot i).pc := fun i np hf =>
    (hpc i).resolve_right fun hno => hno np hf
  refine ⟨fun i np hf => ?_, fun i np hf => ?_, fun i j np hi hj => ?_⟩
  · have hf' : (s.slot i).pc.Forks np := hback i np hf ▸ hf
    obtain ⟨he, hl, hid, hid', -⟩ := hkeep i np hf' hf
    exact ⟨he, hl, by rw [hid, hid']; exact (h.embryo i np hf').2.2⟩
  · have hforks : (s'.slot i).pc.Forks np := Or.inr hf
    have hf' : (s.slot i).pc = .copied np := hback i np hforks ▸ hf
    exact (hkeep i np (Or.inr hf') hforks).2.2.2.2 hf'
  · exact h.unique i j np (hback i np hi ▸ hi) (hback j np hj ▸ hj)

theorem Forking.stirs (h : Forking s) (hs : Stirs s s') (hpc : ∀ p, (s'.slot p).pc = (s.slot p).pc) : Forking s' :=
  h.keep (fun p => Or.inl (hpc p)) fun i np hf _ =>
    ⟨(hs.slot np).embryo.mpr (h.embryo i np hf).1, (hs.slot i).live.mpr (h.embryo i np hf).2.1, (hs.slot i).id, (hs.slot np).id,
      fun hc => (hs.parent np).trans (h.copied i np hc)⟩

theorem Forking.setPc (h : Forking s) (pc : Pc)
    (hforks : ∀ np, pc.Forks np → (s.slot np).state = .embryo ∧ (s.slot i).state.Live ∧ (s.slot i).id < (s.slot np).id ∧
      ∀ j, (s.slot j).pc.Forks np → j = i)
    (hcopied : ∀ np, pc = .copied np → (s.slot np).parent = some i) : Forking (s.setSlot i { s.slot i with pc := pc }) := by
  have hother : ∀ p, ((s.setSlot i { s.slot i with pc := pc }).slot p).state = (s.slot p).state ∧
      ((s.setSlot i { s.slot i with pc := pc }).slot p).id = (s.slot p).id ∧
      ((s.setSlot i { s.slot i with pc := pc }).slot p).parent = (s.slot p).parent := by
    intro p
    by_cases hp : p = i
    · subst hp
      rw [setSlot_self]
      exact ⟨rfl, rfl, rfl⟩
    · rw [setSlot_of_ne s _ hp]
      exact ⟨rfl, rfl, rfl⟩
  have hpc : ∀ p, ((s.setSlot i { s.slot i with pc := pc }).slot p).pc = if p = i then pc else (s.slot p).pc := by
    intro p
    split
    · rename_i hp
      rw [hp, setSlot_self]
    · rename_i hp
      rw [setSlot_of_ne s _ hp]
  refine ⟨fun p np hf => ?_, fun p np hf => ?_, fun p q np hp hq => ?_⟩
  · rw [(hother np).1, (hother p).1, (hother p).2.1, (hother np).2.1]
    rw [hpc p] at hf
    split at hf
    · rename_i hp
      exact hp ▸ ⟨(hforks np hf).1, (hforks np hf).2.1, (hforks np hf).2.2.1⟩
    · exact h.embryo p np hf
  · rw [(hother np).2.2]
    rw [hpc p] at hf
    split at hf
    · rename_i hp
      exact hp ▸ hcopied np hf
    · exact h.copied p np hf
  · rw [hpc p] at hp
    rw [hpc q] at hq
    split at hp
    · rename_i hpi
      split at hq
      · rename_i hqi
        rw [hpi, hqi]
      · exact hpi.trans ((hforks np hp).2.2.2 q hq).symm
    · split at hq
      · rename_i hqi
        exact ((hforks np hq).2.2.2 p hp).trans hqi.symm
      · exact h.unique p q np hp hq

/-! ### Steps on one slot -/

structure Only (s s' : Ptable) (i : ProcIdx) : Prop where
  slot : ∀ p, p ≠ i → s'.slot p = s.slot p
  initproc : s'.initproc = s.initproc
  exits : s'.exits = s.exits

theorem Only.setSlot (s : Ptable) (i : ProcIdx) (x : Slot) : Only s (s.setSlot i x) i :=
  ⟨fun _ hp => setSlot_of_ne s x hp, rfl, rfl⟩

theorem Only.exited (ho : Only s s' i) : s'.exited = s.exited := by rw [Ptable.exited, ho.exits, Ptable.exited]

theorem Only.answers (ho : Only s s' i) (hi : i ≠ s.initproc) {id forker : Nat} : s'.Answers id forker ↔ s.Answers id forker := by
  unfold Answers
  rw [ho.initproc, ho.exited, ho.slot _ hi.symm]

theorem Family.ne_init (h : Family s) (hi : ¬(s.slot i).state.Live) : i ≠ s.initproc := by
  rintro rfl
  exact hi h.init

/-- Slot `i` changes, which had no live process: what must hold of its new contents and of those who have been reaped. -/
theorem Family.only (h : Family s) (ho : Only s s' i) (hbirths : s.births ≤ s'.births) (hold : ¬(s.slot i).state.Live)
    (hquiet : (s'.slot i).state ≠ .sleeping ∧ (s'.slot i).state ≠ .zombie)
    (hparent : (s'.slot i).Alive → ∃ q, (s'.slot i).parent = some q ∧ (s.slot q).state.Live ∧
      s.Answers (s.slot q).id (s'.slot i).forker ∧ (s'.slot i).forker < (s'.slot i).id)
    (hid : (s'.slot i).state ≠ .unused → (s'.slot i).id < s'.births ∧ (s'.slot i).id ∉ s.exited ∧
      ∀ p, p ≠ i → (s.slot p).state ≠ .unused → (s.slot p).id ≠ (s'.slot i).id)
    (hzombie : ∀ p, p ≠ i → (s.slot p).state = .zombie → (s.slot p).id ∉ s'.reaped) (hreaps : s'.reaped.Nodup)
    (hreap : ∀ r ∈ s'.reaps, ∃ e ∈ s.exits, e.id = r.child ∧ r.pid = e.pid ∧
      r.status = (if r.call = .wait false then none else some e.status) ∧ s.Answers r.reaper e.forker) : Family s' := by
  have hne := h.ne_init hold
  have hlive : ∀ q, (s.slot q).state.Live → s'.slot q = s.slot q := fun q hq => ho.slot q fun he => hold (he ▸ hq)
  constructor
  case init => rw [ho.initproc, ho.slot _ hne.symm]; exact h.init
  case parent =>
    intro p hp hpne
    by_cases hpi : p = i
    · subst hpi
      obtain ⟨q, hq, hl, ha, -⟩ := hparent hp
      exact ⟨q, hq, by rw [hlive q hl, ho.answers hne]; exact ⟨hl, ha⟩⟩
    · rw [ho.slot p hpi] at hp ⊢
      obtain ⟨q, hq, hl, ha⟩ := h.parent p hp (ho.initproc ▸ hpne)
      exact ⟨q, hq, by rw [hlive q hl, ho.answers hne]; exact ⟨hl, ha⟩⟩
  case older =>
    intro p hp hpne
    by_cases hpi : p = i
    · subst hpi
      obtain ⟨-, -, -, -, hlt⟩ := hparent hp
      exact hlt
    · rw [ho.slot p hpi] at hp ⊢
      exact h.older p hp (ho.initproc ▸ hpne)
  case id_lt =>
    intro p hp
    by_cases hpi : p = i
    · subst hpi
      exact (hid hp).1
    · rw [ho.slot p hpi] at hp ⊢
      exact lt_of_lt_of_le (h.id_lt p hp) hbirths
  case id_inj =>
    intro p q hp hq he
    by_cases hpi : p = i
    · by_cases hqi : q = i
      · exact hpi.trans hqi.symm
      · subst hpi
        rw [ho.slot q hqi] at hq he
        exact absurd he.symm ((hid hp).2.2 q hqi hq)
    · rw [ho.slot p hpi] at hp he
      by_cases hqi : q = i
      · subst hqi
        exact absurd he ((hid hq).2.2 p hpi hp)
      · rw [ho.slot q hqi] at hq he
        exact h.id_inj p q hp hq he
  case exit_lt =>
    intro e he
    rw [ho.exits] at he
    exact lt_of_lt_of_le (h.exit_lt e he) hbirths
  case not_exited =>
    intro p hp
    rw [ho.exited]
    by_cases hpi : p = i
    · subst hpi
      refine (hid fun hu => ?_).2.1
      rw [hu] at hp
      rcases hp with hp | hp
      · exact hp
      · cases hp
    · rw [ho.slot p hpi] at hp ⊢
      exact h.not_exited p hp
  case zombie =>
    intro p hp
    have hpi : p ≠ i := fun he => hquiet.2 (he ▸ hp)
    rw [ho.slot p hpi] at hp ⊢
    exact ⟨ho.exits ▸ (h.zombie p hp).1, hzombie p hpi hp⟩
  case exits => rw [ho.exited]; exact h.exits
  case reaps => exact hreaps
  case reap =>
    intro r hr
    obtain ⟨e, he, hid, hpid, hstatus, ha⟩ := hreap r hr
    exact ⟨e, ho.exits ▸ he, hid, hpid, hstatus, (ho.answers hne).mpr ha⟩
  case wait =>
    intro p q hq hc hp hz
    have hpi : p ≠ i := fun he => hquiet.2 (he ▸ hz)
    have hqi : q ≠ i := fun he => hquiet.1 (he ▸ hq)
    rw [ho.slot p hpi] at hp hz
    rw [ho.slot q hqi] at hq hc
    exact h.wait p q hq hc hp hz

theorem Family.offstage (h : Family s) (ho : Only s s' np) (hreaps : s'.reaps = s.reaps) (hbirths : s.births ≤ s'.births)
    (hold : ¬(s.slot np).Alive) (hnew : ¬(s'.slot np).Alive)
    (hid : (s'.slot np).state ≠ .unused → (s'.slot np).id < s'.births ∧ (s'.slot np).id ∉ s.exited ∧
      ∀ p, p ≠ np → (s.slot p).state ≠ .unused → (s.slot p).id ≠ (s'.slot np).id) : Family s' := by
  have hreaped : s'.reaped = s.reaped := by rw [reaped, hreaps, reaped]
  refine h.only ho hbirths (mt Or.inl hold) ⟨fun he => hnew (.inl (he ▸ trivial)), fun he => hnew (.inr he)⟩
    (fun ha => absurd ha hnew) hid (fun p _ hz => ?_) ?_ (hreaps ▸ h.reap)
  · rw [hreaped]
    exact (h.zombie p hz).2
  · rw [hreaped]
    exact h.reaps

theorem Family.born (h : Family s) (ho : Only s s' np) (hreaps : s'.reaps = s.reaps) (hbirths : s'.births = s.births)
    (hold : (s.slot np).state = .embryo) (hnew : (s'.slot np).state = .runnable) (hid : (s'.slot np).id = (s.slot np).id)
    (hparent : (s'.slot np).parent = some i) (hforker : (s'.slot np).forker = (s.slot i).id) (hi : (s.slot i).state.Live)
    (hlt : (s.slot i).id < (s.slot np).id) : Family s' := by
  have hreaped : s'.reaped = s.reaped := by rw [reaped, hreaps, reaped]
  have hused : (s.slot np).state ≠ .unused := hold ▸ nofun
  refine h.only ho hbirths.ge (by rw [hold]; exact id) (by rw [hnew]; exact ⟨nofun, nofun⟩) (fun _ => ?_) (fun _ => ?_)
    (fun p _ hz => ?_) ?_ (hreaps ▸ h.reap)
  · rw [hforker, hid]
    exact ⟨i, hparent, hi, .inl rfl, hlt⟩
  · rw [hid, hbirths]
    exact ⟨h.id_lt np hused, h.not_exited np (.inr hold), fun p hp hu he => hp (h.id_inj p np hu hused he)⟩
  · rw [hreaped]
    exact (h.zombie p hz).2
  · rw [hreaped]
    exact h.reaps

/-! ### `wait` and `exit` -/

theorem Family.reapChild (h : Family s) {r : Reap} (ho : Only s s' p) (hreaps : s'.reaps = r :: s.reaps) (hbirths : s'.births = s.births)
    (hold : (s.slot p).state = .zombie) (hnew : (s'.slot p).state = .unused) (hchild : r.child = (s.slot p).id)
    (hpid : r.pid = (s.slot p).pid) (hstatus : r.status = if r.call = .wait false then none else some (s.slot p).status)
    (hreaper : r.reaper = (s.slot i).id) (hparent : (s.slot p).parent = some i) : Family s' := by
  have hused : (s.slot p).state ≠ .unused := hold ▸ nofun
  have hdead : ¬(s.slot p).state.Live := by rw [hold]; exact id
  refine h.only ho hbirths.ge hdead (by rw [hnew]; exact ⟨nofun, nofun⟩) (fun ha => ?_) (fun hu => absurd hnew hu) (fun q hq hz => ?_)
    ?_ fun r' hr' => ?_
  · rw [Slot.Alive, hnew] at ha
    exact ha.elim False.elim nofun
  · rw [reaped, hreaps, List.map_cons, List.mem_cons, not_or]
    exact ⟨fun he => hq (h.id_inj q p (hz ▸ nofun) hused (he.trans hchild)), (h.zombie q hz).2⟩
  · rw [reaped, hreaps, List.map_cons, hchild]
    exact List.nodup_cons.mpr ⟨(h.zombie p hold).2, h.reaps⟩
  · rw [hreaps] at hr'
    rcases List.mem_cons.mp hr' with rfl | hr'
    · refine ⟨_, (h.zombie p hold).1, hchild.symm, hpid, hstatus, ?_⟩
      obtain ⟨q, hq, -, ha⟩ := h.parent p (Or.inr hold) (h.ne_init hdead)
      obtain rfl : i = q := Option.some.inj (hparent.symm.trans hq)
      rw [hreaper]
      exact ha
    · exact h.reap r' hr'

theorem Family.sleepInWait (h : Family s) (c : Option Chan) (pc : Pc) (hi : (s.slot i).state.Live)
    (hno : ∀ p, (s.slot p).parent = some i → (s.slot p).state ≠ .zombie) :
    Family (s.setSlot i { s.slot i with chan := c, state := .sleeping, pc := pc }) := by
  refine h.stirs (Stirs.setSlot ⟨Or.inr ⟨hi, trivial⟩, rfl, rfl, rfl, rfl⟩ rfl) fun p q hq hc hp => ?_
  have hparent : ∀ p, ((s.setSlot i { s.slot i with chan := c, state := .sleeping, pc := pc }).slot p).parent = (s.slot p).parent := by
    intro p
    by_cases hpi : p = i
    · rw [hpi, setSlot_self]
    · rw [setSlot_of_ne s _ hpi]
  have hp' := (hparent p).symm.trans hp
  by_cases hpi : p = i
  · rw [hpi, setSlot_self]
    exact fun h => nomatch h
  · rw [setSlot_of_ne s _ hpi]
    by_cases hqi : q = i
    · exact hno p (hqi ▸ hp')
    · rw [setSlot_of_ne s _ hqi] at hq hc
      exact h.wait p q hq hc hp'

def Slot.times (x : Slot) : Perf := ⟨x.ctime, x.ttime, x.stime, x.retime, x.rutime⟩

theorem wakeup1_times (s : Ptable) (c : Chan) (p : ProcIdx) : ((s.wakeup1 c).slot p).times = (s.slot p).times := by
  show (if _ then _ else _ : Slot).times = _
  split <;> rfl

/-- The children of `i` among `ps` have been passed to init. -/
structure Adopts (s s' : Ptable) (i : ProcIdx) (ps : List ProcIdx) : Prop where
  slot : ∀ p, (s.slot p).Stirs (s'.slot p)
  pc : ∀ p, (s'.slot p).pc = (s.slot p).pc
  times : ∀ p, (s'.slot p).times = (s.slot p).times
  parent : ∀ p, (s'.slot p).parent = if p ∈ ps ∧ (s.slot p).parent = some i then some s.initproc else (s.slot p).parent
  sleeping : ∀ q, (s'.slot q).state = .sleeping → (s.slot q).state = .sleeping ∧ (s'.slot q).chan = (s.slot q).chan
  awake : (∃ p ∈ ps, (s.slot p).parent = some i ∧ (s.slot p).state = .zombie) →
    ∀ q, (s'.slot q).state = .sleeping → (s'.slot q).chan ≠ some (.proc s.initproc)
  initproc : s'.initproc = s.initproc
  births : s'.births = s.births
  exits : s'.exits = s.exits
  reaps : s'.reaps = s.reaps
  ticks : s'.ticks = s.ticks

theorem Adopts.refl (s : Ptable) (i : ProcIdx) (h : (s.slot p).parent ≠ some i) : Adopts s s i [p] where
  slot _ := .refl _
  pc _ := rfl
  times _ := rfl
  parent q := by
    rw [if_neg]
    rintro ⟨hq, hp⟩
    rw [List.mem_singleton.mp hq] at hp
    exact h hp
  sleeping _ hq := ⟨hq, rfl⟩
  awake := by
    rintro ⟨q, hq, hp, -⟩
    rw [List.mem_singleton.mp hq] at hp
    exact absurd hp h
  initproc := rfl
  births := rfl
  exits := rfl
  reaps := rfl
  ticks := rfl

theorem Adopts.child (s : Ptable) (i : ProcIdx) (h : (s.slot p).parent = some i) :
    Adopts s (if ((s.setSlot p { s.slot p with parent := some s.initproc }).slot p).state = .zombie then
      (s.setSlot p { s.slot p with parent := some s.initproc }).wakeup1 (.proc s.initproc)
      else s.setSlot p { s.slot p with parent := some s.initproc }) i [p] := by
  generalize ht : s.setSlot p { s.slot p with parent := some s.initproc } = t
  have hself : t.slot p = { s.slot p with parent := some s.initproc } := by rw [← ht, setSlot_self]
  have hother : ∀ q, q ≠ p → t.slot q = s.slot q := fun q hq => by rw [← ht, setSlot_of_ne s _ hq]
  have hslot : ∀ q, (s.slot q).Stirs (t.slot q) ∧ (t.slot q).pc = (s.slot q).pc ∧ (t.slot q).chan = (s.slot q).chan ∧
      (t.slot q).state = (s.slot q).state ∧ (t.slot q).times = (s.slot q).times := by
    intro q
    by_cases hq : q = p
    · rw [hq, hself]
      exact ⟨⟨Or.inl rfl, rfl, rfl, rfl, rfl⟩, rfl, rfl, rfl, rfl⟩
    · rw [hother q hq]
      exact ⟨.refl _, rfl, rfl, rfl, rfl⟩
  have hparent : ∀ q, (t.slot q).parent = if q ∈ [p] ∧ (s.slot q).parent = some i then some s.initproc else (s.slot q).parent := by
    intro q
    by_cases hq : q = p
    · rw [hq, hself, if_pos ⟨List.mem_singleton_self p, h⟩]
    · rw [hother q hq, if_neg fun hc => hq (List.mem_singleton.mp hc.1)]
  have htables : t.initproc = s.initproc ∧ t.births = s.births ∧ t.exits = s.exits ∧ t.reaps = s.reaps ∧ t.ticks = s.ticks := by
    rw [← ht]
    exact ⟨rfl, rfl, rfl, rfl, rfl⟩
  obtain ⟨hinit, hbirths, hexits, hreaps, hticks⟩ := htables
  have hstate : (t.slot p).state = (s.slot p).state := (hslot p).2.2.2.1
  split
  · have hw := wakeup1_stirs t (.proc s.initproc)
    refine ⟨fun q => (hslot q).1.trans (hw.slot q), fun q => (wakeup1_pc t _ q).trans (hslot q).2.1,
      fun q => (wakeup1_times t _ q).trans (hslot q).2.2.2.2, fun q => (hw.parent q).trans (hparent q),
      fun q hq => ?_, fun _ q hq => ?_, hinit, hbirths, hexits, hreaps, hticks⟩
    · have heq := (wakeup1_sleeping t _ q hq).1
      rw [heq] at hq ⊢
      exact ⟨(hslot q).2.2.2.1 ▸ hq, (hslot q).2.2.1⟩
    · obtain ⟨heq, hne⟩ := wakeup1_sleeping t _ q hq
      rw [heq]
      exact hne
  · rename_i hz
    refine ⟨fun q => (hslot q).1, fun q => (hslot q).2.1, fun q => (hslot q).2.2.2.2, hparent,
      fun q hq => ⟨(hslot q).2.2.2.1 ▸ hq, (hslot q).2.2.1⟩, ?_, hinit, hbirths, hexits, hreaps, hticks⟩
    rintro ⟨q, hq, -, hzq⟩
    rw [List.mem_singleton.mp hq] at hzq
    exact absurd (hstate.trans hzq) hz

theorem Adopts.cons {t : Ptable} {ps : List ProcIdx} (hi : i ≠ s.initproc) (h : Adopts s t i [p]) (h' : Adopts t s' i ps) :
    Adopts s s' i (p :: ps) where
  slot q := (h.slot q).trans (h'.slot q)
  pc q := (h'.pc q).trans (h.pc q)
  times q := (h'.times q).trans (h.times q)
  parent q := by
    have ht := h.parent q
    rw [h'.parent, h.initproc]
    by_cases hc : q = p ∧ (s.slot q).parent = some i
    · rw [if_pos ⟨List.mem_singleton.mpr hc.1, hc.2⟩] at ht
      rw [ht, if_neg fun he => hi (Option.some.inj he.2).symm, if_pos ⟨hc.1 ▸ List.mem_cons_self, hc.2⟩]
    · rw [if_neg fun he => hc ⟨List.mem_singleton.mp he.1, he.2⟩] at ht
      rw [ht]
      refine if_congr ⟨fun he => ⟨List.mem_cons_of_mem p he.1, he.2⟩, fun he => ⟨?_, he.2⟩⟩ rfl rfl
      exact (List.mem_cons.mp he.1).resolve_left fun hqp => hc ⟨hqp, he.2⟩
  sleeping q hq := by
    obtain ⟨hq', hc'⟩ := h'.sleeping q hq
    obtain ⟨hq'', hc''⟩ := h.sleeping q hq'
    exact ⟨hq'', hc'.trans hc''⟩
  awake := by
    rintro ⟨q, hq, hp, hz⟩ r hr
    obtain ⟨hr', hc'⟩ := h'.sleeping r hr
    by_cases hqp : q = p
    · rw [hc']
      exact h.awake ⟨q, List.mem_singleton.mpr hqp, hp, hz⟩ r hr'
    · rw [← h.initproc]
      refine h'.awake ⟨q, (List.mem_cons.mp hq).resolve_left hqp, ?_, (h.slot q).zombie.mpr hz⟩ r hr
      rw [h.parent, if_neg fun he => hqp (List.mem_singleton.mp he.1), hp]
  initproc := h'.initproc.trans h.initproc
  births := h'.births.trans h.births
  exits := h'.exits.trans h.exits
  reaps := h'.reaps.trans h.reaps
  ticks := h'.ticks.trans h.ticks

theorem adopt_adopts : ∀ (ps : List ProcIdx) {s : Ptable}, i ≠ s.initproc → Adopts s (adopt i ps s) i ps
  | [], s, _ => by
    refine ⟨fun _ => .refl _, fun _ => rfl, fun _ => rfl, fun q => ?_, fun q hq => ⟨hq, rfl⟩, ?_, rfl, rfl, rfl, rfl, rfl⟩
    · rw [if_neg fun he => List.not_mem_nil he.1]
      rfl
    · rintro ⟨q, hq, -⟩
      exact absurd hq List.not_mem_nil
  | p :: ps, s, hi => by
    rw [adopt]
    split
    · rename_i hp
      have hone := Adopts.child s i hp
      exact hone.cons hi (adopt_adopts ps fun he => hi (he.trans hone.initproc))
    · rename_i hp
      exact (Adopts.refl s i hp).cons hi (adopt_adopts ps hi)

theorem Family.exit {t : Ptable} {status : UInt32} {x : Slot} (h : Family s) (ha : Adopts s t i (List.finRange NPROC)) (hi : (s.slot i).state.Live)
    (hne : i ≠ s.initproc) (hawake : ∀ q, (s.slot q).state = .sleeping → (s.slot q).chan ≠ some (chanOf (s.slot i).parent))
    (hslot : ∀ p, p ≠ i → s'.slot p = t.slot p) (hself : s'.slot i = x) (hinit : s'.initproc = t.initproc) (hbirths : s'.births = t.births)
    (hreaps : s'.reaps = t.reaps) (hexits : s'.exits = ⟨(t.slot i).id, (t.slot i).pid, status, (t.slot i).forker⟩ :: t.exits)
    (hx : x.state = .zombie ∧ x.status = status ∧ x.id = (t.slot i).id ∧ x.pid = (t.slot i).pid ∧ x.forker = (t.slot i).forker ∧
      x.parent = (t.slot i).parent) : Family s' := by
  obtain ⟨hxz, hxst, hxid, hxpid, hxf, hxp⟩ := hx
  have hid : ∀ p, (s'.slot p).id = (s.slot p).id := by
    intro p
    by_cases hp : p = i
    · rw [hp, hself, hxid, (ha.slot i).id]
    · rw [hslot p hp, (ha.slot p).id]
  have hforker : ∀ p, (s'.slot p).forker = (s.slot p).forker := by
    intro p
    by_cases hp : p = i
    · rw [hp, hself, hxf, (ha.slot i).forker]
    · rw [hslot p hp, (ha.slot p).forker]
  have hparent : ∀ p, (s'.slot p).parent = if (s.slot p).parent = some i then some s.initproc else (s.slot p).parent := by
    intro p
    have hp := ha.parent p
    simp only [List.mem_finRange, true_and] at hp
    by_cases hpi : p = i
    · subst hpi
      rw [hself, hxp, hp]
    · rw [hslot p hpi, hp]
  have hlive : ∀ q, q ≠ i → ((s'.slot q).state.Live ↔ (s.slot q).state.Live) := fun q hq => by
    rw [hslot q hq, (ha.slot q).live]
  have hnew : (s'.slot i).state = .zombie := by rw [hself, hxz]
  have hunused : ∀ p, (s'.slot p).state ≠ .unused → (s.slot p).state ≠ .unused := by
    intro p hp
    by_cases hpi : p = i
    · rw [hpi]
      intro hu
      rw [hu] at hi
      exact hi
    · rw [hslot p hpi] at hp
      exact mt (ha.slot p).unused.mpr hp
  have hexited : s'.exited = (s.slot i).id :: s.exited := by
    rw [exited, hexits, List.map_cons, ha.exits, (ha.slot i).id]
    rfl
  have hreaped : s'.reaped = s.reaped := by rw [reaped, hreaps, ha.reaps, reaped]
  have hinit' : s'.initproc = s.initproc := hinit.trans ha.initproc
  have hanswers : ∀ {id forker : Nat}, s.Answers id forker → s'.Answers id forker := by
    intro id forker hans
    unfold Answers at *
    rw [hinit', hid, hexited]
    exact hans.imp_right fun ⟨he, hf⟩ => ⟨he, List.mem_cons_of_mem _ hf⟩
  have halive : ∀ p, (s'.slot p).Alive → (s.slot p).Alive := by
    intro p hp
    by_cases hpi : p = i
    · exact hpi ▸ Or.inl hi
    · rw [hslot p hpi] at hp
      exact (ha.slot p).alive.mp hp
  have hnotexited := h.not_exited i (Or.inl hi)
  -- The parent of `i` is another process.
  obtain ⟨par, hpar, hparlive, hparans⟩ := h.parent i (Or.inl hi) hne
  have hpari : par ≠ i := by
    rintro rfl
    rcases hparans with he | ⟨he, -⟩
    · exact absurd he.symm (h.older par (Or.inl hi) hne).ne
    · refine hne (h.id_inj _ _ ?_ ?_ he)
      · intro hu
        rw [hu] at hi
        exact hi
      · intro hu
        have := h.init
        rw [hu] at this
        exact this
  constructor
  case init =>
    rw [hinit', hlive _ hne.symm]
    exact h.init
  case parent =>
    intro p hp hpne
    obtain ⟨q, hq, hl, hans⟩ := h.parent p (halive p hp) (hinit' ▸ hpne)
    rw [hforker, hparent]
    by_cases hqi : q = i
    · -- A child of `i` is now a child of init.
      subst hqi
      refine ⟨s.initproc, if_pos hq, (hlive _ hne.symm).mpr h.init, Or.inr ⟨by rw [hinit'], ?_⟩⟩
      rw [hexited]
      rcases hans with he | ⟨-, he⟩
      · exact he ▸ List.mem_cons_self
      · exact List.mem_cons_of_mem _ he
    · refine ⟨q, ?_, (hlive q hqi).mpr hl, ?_⟩
      · rw [if_neg fun he => hqi (Option.some.inj (hq.symm.trans he)), hq]
      · rw [hid]
        exact hanswers hans
  case older =>
    intro p hp hpne
    rw [hforker, hid]
    exact h.older p (halive p hp) (hinit' ▸ hpne)
  case id_lt =>
    intro p hp
    rw [hid, hbirths, ha.births]
    exact h.id_lt p (hunused p hp)
  case id_inj =>
    intro p q hp hq he
    rw [hid, hid] at he
    exact h.id_inj p q (hunused p hp) (hunused q hq) he
  case exit_lt =>
    intro e he
    rw [hbirths, ha.births]
    rw [hexits, ha.exits] at he
    rcases List.mem_cons.mp he with rfl | he
    · rw [(ha.slot i).id]
      exact h.id_lt i fun hu => by
        rw [hu] at hi
        exact hi
    · exact h.exit_lt e he
  case not_exited =>
    intro p hp
    have hpi : p ≠ i := by
      rintro rfl
      rw [hnew] at hp
      rcases hp with hp | hp
      · exact hp
      · cases hp
    rw [hslot p hpi, (ha.slot p).live, (ha.slot p).embryo] at hp
    rw [hid, hexited, List.mem_cons, not_or]
    refine ⟨fun he => hpi (h.id_inj p i ?_ ?_ he), h.not_exited p hp⟩
    · intro hu
      rw [hu] at hp
      rcases hp with hp | hp
      · exact hp
      · cases hp
    · intro hu
      rw [hu] at hi
      exact hi
  case zombie =>
    intro p hp
    rw [hexits, hreaped, hid, hforker]
    by_cases hpi : p = i
    · subst hpi
      refine ⟨?_, fun hmem => hnotexited ?_⟩
      · rw [hself, hxpid, hxst, ← (ha.slot p).id, ← (ha.slot p).forker]
        exact List.mem_cons_self
      · obtain ⟨r, hr, hrid⟩ := List.mem_map.mp hmem
        obtain ⟨e, he, heid, -⟩ := h.reap r hr
        exact List.mem_map.mpr ⟨e, he, heid.trans hrid⟩
    · rw [hslot p hpi, (ha.slot p).zombie] at hp
      obtain ⟨he, hr⟩ := h.zombie p hp
      rw [hslot p hpi, (ha.slot p).pid, (ha.slot p).status, ha.exits]
      exact ⟨List.mem_cons_of_mem _ he, hr⟩
  case exits =>
    rw [hexited]
    exact List.nodup_cons.mpr ⟨hnotexited, h.exits⟩
  case reaps =>
    rw [hreaped]
    exact h.reaps
  case reap =>
    intro r hr
    rw [hreaps, ha.reaps] at hr
    obtain ⟨e, he, heid, hepid, hestatus, hans⟩ := h.reap r hr
    refine ⟨e, ?_, heid, hepid, hestatus, hanswers hans⟩
    rw [hexits, ha.exits]
    exact List.mem_cons_of_mem _ he
  case wait =>
    intro p q hq hc hp hz
    have hqi : q ≠ i := fun he => by
      rw [he, hnew] at hq
      cases hq
    rw [hslot q hqi] at hq hc
    obtain ⟨hqs, hqc⟩ := ha.sleeping q hq
    rw [hparent] at hp
    by_cases hpi : p = i
    · -- The parent of the new zombie has been woken up.
      subst hpi
      rw [if_neg fun he => hpari (Option.some.inj (hpar.symm.trans he)), hpar] at hp
      obtain rfl := Option.some.inj hp
      refine hawake par hqs ?_
      rw [← hqc, hc, hpar]
      rfl
    · rw [hslot p hpi, (ha.slot p).zombie] at hz
      split at hp
      · -- An orphan that is a zombie already has woken init.
        rename_i hpar'
        obtain rfl := Option.some.inj hp
        exact ha.awake ⟨p, List.mem_finRange p, hpar', hz⟩ _ hq hc
      · exact h.wait p q hqs (hqc ▸ hc) hp hz

end Ptable
end Xv6
