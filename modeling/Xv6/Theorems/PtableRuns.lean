import Xv6.Theorems.Ptable

/-! What holds of parents and children in every run of the process table. -/

namespace Xv6
open Machine
namespace Ptable
variable {s s' : Ptable} {a : Act} {i p q np : ProcIdx}

structure Inv (s : Ptable) : Prop extends Forking s, Family s

theorem Pc.not_forks_user (np : ProcIdx) : ¬Pc.user.Forks np := by
  rintro (h | h) <;> cases h

theorem Pc.not_forks_waiting (c : WaitCall) (np : ProcIdx) : ¬(Pc.waiting c).Forks np := by
  rintro (h | h) <;> cases h

theorem Inv.rest (h : Inv s) (hs : Stirs s s') (hn : NoneWaits s s') (hpc : ∀ p, (s'.slot p).pc = (s.slot p).pc) : Inv s' :=
  { h.toForking.stirs hs hpc, h.toFamily.rest hs hn with }

theorem Inv.setSlot {x : Slot} (h : Inv s) (hx : (s.slot i).Stirs x) (hparent : x.parent = (s.slot i).parent) (hpc : x.pc = (s.slot i).pc)
    (hn : x.state = .sleeping → x.chan = some (.proc i) → (s.slot i).state = .sleeping ∧ (s.slot i).chan = some (.proc i)) :
    Inv (s.setSlot i x) := by
  refine h.rest (.setSlot hx hparent) (.setSlot hn) fun p => ?_
  by_cases hp : p = i
  · rw [hp, setSlot_self, hpc]
  · rw [setSlot_of_ne s x hp]

theorem Family.setPc (h : Family s) (i : ProcIdx) (pc : Pc) : Family (s.setSlot i { s.slot i with pc := pc }) :=
  h.rest (.setSlot ⟨Or.inl rfl, rfl, rfl, rfl, rfl⟩ rfl) (.setSlot fun hs hc => ⟨hs, hc⟩)

theorem Inv.setPc (h : Inv s) {pc : Pc} (hpc : ∀ np, ¬pc.Forks np) : Inv (s.setSlot i { s.slot i with pc := pc }) :=
  { h.toForking.setPc pc (fun np hf => absurd hf (hpc np)) (fun np hf => absurd (Or.inr hf) (hpc np)), h.toFamily.setPc i pc with }

theorem allocproc_eq {t : Ptable} (h : s.allocproc = some (np, t)) : (s.slot np).state = .unused ∧
    t = { s with nextpid := s.nextpid + 1, births := s.births + 1 }.setSlot np
      { s.slot np with state := .embryo, pid := s.nextpid, pc := .user, id := s.births } := by
  unfold allocproc at h
  split at h
  · cases h
  · rename_i p hp
    cases h
    have := List.find?_some hp
    exact ⟨by simpa using this, rfl⟩

theorem Inv.fork {t : Ptable} (h : Inv s) (hi : (s.slot i).state = .running) (halloc : s.allocproc = some (np, t)) :
    Inv (t.setSlot i { t.slot i with pc := .allocated np }) := by
  obtain ⟨hunused, rfl⟩ := allocproc_eq halloc
  have hine : i ≠ np := by
    rintro rfl
    rw [hi] at hunused
    cases hunused
  generalize ht : { s with nextpid := s.nextpid + 1, births := s.births + 1 }.setSlot np
    { s.slot np with state := .embryo, pid := s.nextpid, pc := .user, id := s.births } = t
  have hself : t.slot np = { s.slot np with state := .embryo, pid := s.nextpid, pc := .user, id := s.births } := by
    rw [← ht, setSlot_self]
  have hother : ∀ p, p ≠ np → t.slot p = s.slot p := fun p hp => by rw [← ht, setSlot_of_ne _ _ hp]
  have ho : Only s t np := ⟨hother, by rw [← ht]; rfl, by rw [← ht]; rfl⟩
  have hbirths : t.births = s.births + 1 := by rw [← ht]; rfl
  have hfamily : Family t := by
    refine h.toFamily.offstage ho (by rw [← ht]; rfl) (by rw [hbirths]; exact Nat.le_succ _) ?_ ?_ fun _ => ?_
    · rw [Slot.Alive, hunused]
      exact fun h => h.elim id fun h => by cases h
    · rw [Slot.Alive, hself]
      exact fun h => h.elim id fun h => by cases h
    · rw [hself, hbirths]
      refine ⟨Nat.lt_succ_self _, fun hmem => ?_, fun p _ hp => (h.id_lt p hp).ne⟩
      obtain ⟨e, he, hid⟩ := List.mem_map.mp hmem
      exact absurd hid (h.exit_lt e he).ne
  have hforks : ∀ j np', (s.slot j).pc.Forks np' → np' ≠ np ∧ j ≠ np := by
    intro j np' hf
    obtain ⟨he, hl, -⟩ := h.embryo j np' hf
    constructor
    · rintro rfl
      rw [hunused] at he
      cases he
    · rintro rfl
      rw [hunused] at hl
      exact hl
  have hforking : Forking t := by
    refine h.toForking.keep (fun p => ?_) fun j np' hf _ => ?_
    · by_cases hp : p = np
      · rw [hp, hself]
        exact Or.inr Pc.not_forks_user
      · exact Or.inl (by rw [hother p hp])
    · obtain ⟨hnp', hj⟩ := hforks j np' hf
      rw [hother np' hnp', hother j hj]
      exact ⟨(h.embryo j np' hf).1, (h.embryo j np' hf).2.1, rfl, rfl, h.copied j np'⟩
  refine { hforking.setPc (.allocated np) (fun np' hf => ?_) (fun np' hc => by cases hc), hfamily.setPc i _ with }
  obtain rfl : np = np' := by
    rcases hf with hf | hf <;> cases hf
    rfl
  rw [hself, hother i hine, hi]
  refine ⟨rfl, trivial, h.id_lt i (by rw [hi]; exact fun h => by cases h), fun j hj => ?_⟩
  by_cases hjn : j = np
  · rw [hjn, hself] at hj
    exact absurd hj (Pc.not_forks_user _)
  · rw [hother j hjn] at hj
    exact absurd rfl (hforks j np hj).1

theorem Inv.forks_ne (h : Inv s) (hf : (s.slot i).pc.Forks np) : i ≠ np := by
  rintro rfl
  obtain ⟨he, hl, -⟩ := h.embryo i i hf
  rw [he] at hl
  exact hl

theorem Inv.leaves (h : Inv s) (x : Slot) (hf : (s.slot i).pc.Forks np) (hx : ∀ np', ¬x.pc.Forks np') :
    Forking ((s.setSlot np x).setSlot i { (s.setSlot np x).slot i with pc := .user }) := by
  have hine := h.forks_ne hf
  have hi : (s.setSlot np x).slot i = s.slot i := setSlot_of_ne s x hine
  have hslot : ∀ p, p ≠ i → p ≠ np → ((s.setSlot np x).setSlot i { (s.setSlot np x).slot i with pc := .user }).slot p = s.slot p :=
    fun p hp hpn => by rw [setSlot_of_ne _ _ hp, setSlot_of_ne _ _ hpn]
  refine h.toForking.keep (fun p => ?_) fun j np' hj hj' => ?_
  · by_cases hp : p = i
    · rw [hp, setSlot_self]
      exact Or.inr Pc.not_forks_user
    · by_cases hpn : p = np
      · rw [hpn, setSlot_of_ne _ _ hine.symm, setSlot_self]
        exact Or.inr hx
      · exact Or.inl (by rw [hslot p hp hpn])
  · have hji : j ≠ i := by
      rintro rfl
      rw [setSlot_self] at hj'
      exact Pc.not_forks_user _ hj'
    have hnp' : np' ≠ np := by
      rintro rfl
      exact hji (h.unique j i np' hj hf)
    obtain ⟨he, hl, -⟩ := h.embryo j np' hj
    have hjn : j ≠ np := by
      rintro rfl
      rw [(h.embryo i j hf).1] at hl
      exact hl
    have hnpi : np' ≠ i := by
      rintro rfl
      have hl := (h.embryo np' np hf).2.1
      rw [he] at hl
      exact hl
    rw [hslot j hji hjn, hslot np' hnpi hnp']
    exact ⟨he, hl, rfl, rfl, h.copied j np'⟩

theorem Slot.not_alive_embryo {x : Slot} (h : x.state = .embryo) : ¬x.Alive := by
  rw [Alive, h]
  exact fun h => h.elim (fun h => h) fun h => by cases h

theorem Inv.forkFails (h : Inv s) (hf : (s.slot i).pc = .allocated np) :
    Inv ((s.setSlot np { s.slot np with state := .unused }).setSlot i
      { (s.setSlot np { s.slot np with state := .unused }).slot i with pc := .user }) := by
  have he := (h.embryo i np (Or.inl hf)).1
  have hfamily : Family (s.setSlot np { s.slot np with state := .unused }) := by
    refine h.toFamily.offstage (.setSlot s np _) rfl (le_refl _) (Slot.not_alive_embryo he) ?_ fun hu => ?_
    · rw [setSlot_self]
      exact fun h => h.elim id fun h => nomatch h
    · rw [setSlot_self] at hu
      exact absurd rfl hu
  refine { h.leaves _ (Or.inl hf) fun np' hf' => ?_, hfamily.setPc i .user with }
  have hl := (h.embryo np np' hf').2.1
  rw [he] at hl
  exact hl

theorem Inv.forkCopies (h : Inv s) (hf : (s.slot i).pc = .allocated np) :
    Inv ((s.setSlot np { s.slot np with parent := some i }).setSlot i
      { (s.setSlot np { s.slot np with parent := some i }).slot i with pc := .copied np }) := by
  have hforks : (s.slot i).pc.Forks np := Or.inl hf
  obtain ⟨he, hl, hlt⟩ := h.embryo i np hforks
  have hine := h.forks_ne hforks
  generalize ht : s.setSlot np { s.slot np with parent := some i } = t
  have hself : t.slot np = { s.slot np with parent := some i } := by rw [← ht, setSlot_self]
  have hother : ∀ p, p ≠ np → t.slot p = s.slot p := fun p hp => by rw [← ht, setSlot_of_ne _ _ hp]
  have hfamily : Family t := by
    have ho : Only s t np := ⟨hother, by rw [← ht]; rfl, by rw [← ht]; rfl⟩
    refine h.toFamily.offstage ho (by rw [← ht]; rfl) (by rw [← ht]; rfl) (Slot.not_alive_embryo he) (Slot.not_alive_embryo (by rw [hself]; exact he)) fun _ => ?_
    have hunused : (s.slot np).state ≠ .unused := by
      rw [he]
      exact fun h => nomatch h
    rw [hself, ← ht]
    exact ⟨h.id_lt np hunused, h.not_exited np (Or.inr he), fun p hp hu hid => hp (h.id_inj p np hu hunused hid)⟩
  have hsame : ∀ p, (t.slot p).pc = (s.slot p).pc ∧ (t.slot p).state = (s.slot p).state ∧ (t.slot p).id = (s.slot p).id := by
    intro p
    by_cases hp : p = np
    · rw [hp, hself]
      exact ⟨rfl, rfl, rfl⟩
    · rw [hother p hp]
      exact ⟨rfl, rfl, rfl⟩
  have hforking : Forking t := by
    refine h.toForking.keep (fun p => Or.inl (hsame p).1) fun j np' hj _ => ?_
    rw [(hsame np').2.1, (hsame j).2.1, (hsame j).2.2, (hsame np').2.2]
    refine ⟨(h.embryo j np' hj).1, (h.embryo j np' hj).2.1, rfl, rfl, fun hc => ?_⟩
    have hnp' : np' ≠ np := by
      rintro rfl
      obtain rfl := h.unique j i np' hj hforks
      rw [hf] at hc
      cases hc
    rw [hother np' hnp']
    exact h.copied j np' hc
  refine { hforking.setPc (.copied np) (fun np' hf' => ?_) (fun np' hc => ?_), hfamily.setPc i _ with }
  · obtain rfl : np = np' := by
      rcases hf' with hf' | hf' <;> cases hf'
      rfl
    rw [(hsame np).2.1, (hsame i).2.1, (hsame i).2.2, (hsame np).2.2]
    exact ⟨he, hl, hlt, fun j hj => h.unique j i np ((hsame j).1 ▸ hj) hforks⟩
  · cases hc
    rw [hself]

theorem Inv.forkEnds (h : Inv s) (hf : (s.slot i).pc = .copied np) :
    Inv ((s.forked i np).setSlot i { (s.forked i np).slot i with pc := .user }) := by
  obtain ⟨he, hl, hlt⟩ := h.embryo i np (Or.inr hf)
  have hfamily : Family (s.forked i np) := by
    refine h.toFamily.born (.setSlot s np _) rfl rfl he ?_ ?_ (i := i) ?_ ?_ hl hlt
    all_goals rw [forked, setSlot_self]
    exact h.copied i np hf
  refine { h.leaves _ (Or.inr hf) fun np' hf' => ?_, hfamily.setPc i .user with }
  have hl := (h.embryo np np' hf').2.1
  rw [he] at hl
  exact hl

theorem Inv.exit (h : Inv s) (hi : s.At i .user) (hne : i ≠ s.initproc) (status : UInt32) : Inv (s.exit i status) := by
  obtain ⟨hrun, hpc⟩ := hi
  have hstirs := wakeup1_stirs s (chanOf (s.slot i).parent)
  have hw := h.rest hstirs (wakeup1_noneWaits s _) (wakeup1_pc s _)
  have hawake : ∀ q, ((s.wakeup1 (chanOf (s.slot i).parent)).slot q).state = .sleeping →
      ((s.wakeup1 (chanOf (s.slot i).parent)).slot q).chan ≠ some (chanOf ((s.wakeup1 (chanOf (s.slot i).parent)).slot i).parent) := by
    intro q hq
    obtain ⟨heq, hc⟩ := wakeup1_sleeping s _ q hq
    rw [heq, hstirs.parent i]
    exact hc
  have hpc' : ((s.wakeup1 (chanOf (s.slot i).parent)).slot i).pc = .user := (wakeup1_pc s _ i).trans hpc
  have hl : ((s.wakeup1 (chanOf (s.slot i).parent)).slot i).state.Live := (hstirs.slot i).live.mpr (by rw [hrun]; trivial)
  have hne' : i ≠ (s.wakeup1 (chanOf (s.slot i).parent)).initproc := hne
  unfold Ptable.exit
  dsimp only
  generalize s.wakeup1 (chanOf (s.slot i).parent) = t at *
  have ha := adopt_adopts (i := i) (List.finRange NPROC) hne'
  generalize adopt i (List.finRange NPROC) t = u at ha ⊢
  generalize hs' : { u with exits := ⟨(u.slot i).id, (u.slot i).pid, status, (u.slot i).forker⟩ :: u.exits }.setSlot i
    { u.slot i with ttime := u.ticks, state := .zombie, status := status, ntickets := 0 } = s'
  have hself : s'.slot i = { u.slot i with ttime := u.ticks, state := .zombie, status := status, ntickets := 0 } := by
    rw [← hs', setSlot_self]
  have hother : ∀ p, p ≠ i → s'.slot p = u.slot p := fun p hp => by rw [← hs', setSlot_of_ne _ _ hp]
  have hfamily : Family s' := hw.toFamily.exit ha hl hne' hawake hother hself (by rw [← hs']; rfl) (by rw [← hs']; rfl) (by rw [← hs']; rfl)
    (by rw [← hs']; rfl) ⟨rfl, rfl, rfl, rfl, rfl, rfl⟩
  refine { hw.toForking.keep (fun p => Or.inl ?_) fun j np hj hj' => ?_, hfamily with }
  · by_cases hp : p = i
    · rw [hp, hself]
      exact ha.pc i
    · rw [hother p hp]
      exact ha.pc p
  · have hji : j ≠ i := by
      rintro rfl
      rw [hpc'] at hj
      exact Pc.not_forks_user _ hj
    obtain ⟨he, hlj, -⟩ := hw.embryo j np hj
    have hnpi : np ≠ i := by
      rintro rfl
      rw [he] at hl
      exact hl
    rw [hother np hnpi, hother j hji, (ha.slot np).embryo, (ha.slot j).live, (ha.slot j).id, (ha.slot np).id]
    refine ⟨he, hlj, rfl, rfl, fun hc => ?_⟩
    have hparent := hw.copied j np hc
    rw [ha.parent, if_neg, hparent]
    rintro ⟨-, he⟩
    exact hji (Option.some.inj (hparent.symm.trans he))

theorem zombieChild_some (h : s.zombieChild i = some p) : (s.slot p).parent = some i ∧ (s.slot p).state = .zombie := by
  have := List.find?_some h
  simpa using this

theorem zombieChild_none (h : s.zombieChild i = none) (p : ProcIdx) (hp : (s.slot p).parent = some i) : (s.slot p).state ≠ .zombie := by
  have := List.find?_eq_none.mp h p (List.mem_finRange p)
  simp only [decide_eq_true_eq, not_and] at this
  exact this hp

theorem Inv.scan (h : Inv s) (hi : (s.slot i).state = .running) (hpc : ∀ np, ¬(s.slot i).pc.Forks np) (c : WaitCall) : Inv (s.scan i c) := by
  unfold Ptable.scan
  split
  · rename_i p hp
    obtain ⟨hparent, hz⟩ := zombieChild_some hp
    refine Inv.setPc ?_ Pc.not_forks_user
    have hclear : ((s.slot p).clear c).state = .unused ∧ ((s.slot p).clear c).pc = (s.slot p).pc := by
      cases c <;> exact ⟨rfl, rfl⟩
    generalize hs' : { s with reaps := (s.slot p).report (s.slot i).id c :: s.reaps }.setSlot p ((s.slot p).clear c) = s'
    have hself : s'.slot p = (s.slot p).clear c := by rw [← hs', setSlot_self]
    have hother : ∀ q, q ≠ p → s'.slot q = s.slot q := fun q hq => by rw [← hs', setSlot_of_ne _ _ hq]
    have hfamily : Family s' := h.toFamily.reapChild (r := (s.slot p).report (s.slot i).id c)
      ⟨hother, by rw [← hs']; rfl, by rw [← hs']; rfl⟩ (by rw [← hs']; rfl) (by rw [← hs']; rfl) hz (by rw [hself, hclear.1]) rfl rfl rfl rfl hparent
    refine { h.toForking.keep (fun q => Or.inl ?_) fun j np hj _ => ?_, hfamily with }
    · by_cases hq : q = p
      · rw [hq, hself, hclear.2]
      · rw [hother q hq]
    · obtain ⟨he, hl, -⟩ := h.embryo j np hj
      have hnp : np ≠ p := by
        rintro rfl
        rw [he] at hz
        cases hz
      have hjp : j ≠ p := by
        rintro rfl
        rw [hz] at hl
        exact hl
      rw [hother np hnp, hother j hjp]
      exact ⟨he, hl, rfl, rfl, h.copied j np⟩
  · rename_i hnone
    split
    · exact h.setPc Pc.not_forks_user
    · have hl : (s.slot i).state.Live := by
        rw [hi]
        trivial
      have hfamily := h.toFamily.sleepInWait (some (.proc i)) (.waiting c) hl (zombieChild_none hnone)
      refine { h.toForking.keep (fun p => ?_) fun j np hj hj' => ?_, hfamily with }
      · by_cases hp : p = i
        · rw [hp, setSlot_self]
          exact Or.inr (Pc.not_forks_waiting c)
        · exact Or.inl (by rw [setSlot_of_ne _ _ hp])
      · have hji : j ≠ i := by
          rintro rfl
          exact hpc np hj
        obtain ⟨he, hlj, -⟩ := h.embryo j np hj
        have hnpi : np ≠ i := by
          rintro rfl
          rw [he] at hl
          exact hl
        rw [setSlot_of_ne _ _ hji, setSlot_of_ne _ _ hnpi]
        exact ⟨he, hlj, rfl, rfl, h.copied j np⟩

theorem Inv.step (h : Inv s) (hs : s.step a = .ok s') : Inv s' := by
  unfold Ptable.step at hs
  cases a with
  | fork i =>
    dsimp only at hs
    split at hs
    · rename_i hat
      split at hs
      · cases hs
        exact h
      · rename_i np t halloc
        cases hs
        exact h.fork hat.1 halloc
    · cases hs
  | forkFails i =>
    dsimp only at hs
    split at hs
    · rename_i np hf
      split at hs <;> cases hs
      exact h.forkFails hf
    · cases hs
  | forkCopies i =>
    dsimp only at hs
    split at hs
    · rename_i np hf
      split at hs <;> cases hs
      exact h.forkCopies hf
    · cases hs
  | forkEnds i =>
    dsimp only at hs
    split at hs
    · rename_i np hf
      split at hs <;> cases hs
      exact h.forkEnds hf
    · cases hs
  | exit i status =>
    dsimp only at hs
    split at hs
    · rename_i hat
      split at hs <;> cases hs
      rename_i hne
      exact h.exit hat hne status
    · cases hs
  | wait i c =>
    dsimp only at hs
    split at hs <;> cases hs
    rename_i hat
    exact h.scan hat.1 (by rw [hat.2]; exact Pc.not_forks_user) c
  | waitAgain i =>
    dsimp only at hs
    split at hs
    · rename_i c hpc
      split at hs <;> cases hs
      rename_i hrun
      exact h.scan hrun (by rw [hpc]; exact Pc.not_forks_waiting c) c
    · cases hs
  | sleep i addr =>
    dsimp only at hs
    split at hs <;> cases hs
    rename_i hat
    refine h.setSlot ⟨Or.inr ⟨?_, trivial⟩, rfl, rfl, rfl, rfl⟩ rfl rfl fun _ hc => nomatch hc
    rw [hat.1]
    trivial
  | wakeup addr =>
    cases hs
    exact h.rest (wakeup1_stirs s _) (wakeup1_noneWaits s _) (wakeup1_pc s _)
  | yield i =>
    dsimp only at hs
    split at hs <;> cases hs
    rename_i hrun
    refine h.setSlot ⟨Or.inr ⟨?_, trivial⟩, rfl, rfl, rfl, rfl⟩ rfl rfl fun hq => nomatch hq
    rw [hrun]
    trivial
  | dispatch i =>
    dsimp only at hs
    split at hs <;> cases hs
    rename_i hrun
    refine h.setSlot ⟨Or.inr ⟨?_, trivial⟩, rfl, rfl, rfl, rfl⟩ rfl rfl fun hq => nomatch hq
    rw [hrun]
    trivial
  | kill pid =>
    cases hs
    exact h.rest (kill_stirs s pid) (kill_noneWaits s pid) (kill_pc s pid)
  | tick =>
    cases hs
    refine h.rest (tick_stirs s) (fun q hq hc => ?_) fun p => (s.slot p).tick_same.2.2.1
    exact ⟨(s.slot q).tick_same.1 ▸ hq, (s.slot q).tick_same.2.1 ▸ hc⟩
  | schedp policy =>
    dsimp only at hs
    split at hs <;> cases hs
    exact h.rest ⟨fun p => .refl _, fun _ => rfl, rfl, rfl, rfl, rfl⟩ (fun q hq hc => ⟨hq, hc⟩) fun _ => rfl
  | priority i priority =>
    dsimp only at hs
    split at hs <;> cases hs
    exact h.setSlot ⟨Or.inl rfl, rfl, rfl, rfl, rfl⟩ rfl rfl fun hq hc => ⟨hq, hc⟩

theorem Inv.boot (ticks : UInt32) (beyond : Int) : Inv (boot ticks beyond) := by
  have hslot : ∀ p : ProcIdx, p ≠ 0 → (Ptable.boot ticks beyond).slot p = {} := fun p hp => if_neg hp
  have huser : ∀ p, ((Ptable.boot ticks beyond).slot p).pc = .user := fun p => by
    by_cases hp : p = 0
    · rw [hp]
      rfl
    · rw [hslot p hp]
  have hunused : ∀ p, ((Ptable.boot ticks beyond).slot p).state ≠ .unused → p = 0 := fun p hp => by
    by_contra hne
    exact hp (by rw [hslot p hne])
  have halive : ∀ p, ((Ptable.boot ticks beyond).slot p).Alive → p = 0 := fun p hp => hunused p fun hu => by
    rw [Slot.Alive, hu] at hp
    exact hp.elim id fun h => by cases h
  have hforks : ∀ p np, ¬((Ptable.boot ticks beyond).slot p).pc.Forks np := fun p np => by
    rw [huser]
    exact Pc.not_forks_user np
  refine ⟨⟨fun i np hf => absurd hf (hforks i np), fun i np hf => absurd (Or.inr hf) (hforks i np),
    fun i j np hf => absurd hf (hforks i np)⟩, ?_⟩
  constructor
  case init => trivial
  case parent => exact fun p hp hne => absurd (halive p hp) hne
  case older => exact fun p hp hne => absurd (halive p hp) hne
  case id_lt =>
    intro p hp
    rw [hunused p hp]
    exact Nat.zero_lt_one
  case id_inj => exact fun p q hp hq _ => (hunused p hp).trans (hunused q hq).symm
  case exit_lt => exact fun e he => absurd he List.not_mem_nil
  case not_exited => exact fun p _ => List.not_mem_nil
  case zombie =>
    intro p hp
    have h0 := halive p (Or.inr hp)
    rw [h0] at hp
    cases hp
  case exits => exact List.nodup_nil
  case reaps => exact List.nodup_nil
  case reap => exact fun r hr => absurd hr List.not_mem_nil
  case wait =>
    intro p q hq
    have h0 := halive q (Or.inl (by rw [hq]; trivial))
    rw [h0] at hq
    cases hq

/-- In every interleaving: every process exits at most once and is reaped at most once; who reaps it gets its pid and status
    and is the process that forked it or, once that has exited, init; every process has a live parent; and nobody sleeps in
    `wait` with a child that is a zombie. -/
theorem exits_reaped_once (hs : Reachable step (fun _ _ => True) (fun s => ∃ ticks beyond, s = boot ticks beyond) s) :
    (s.exits.map (·.id)).Nodup ∧ (s.reaps.map (·.child)).Nodup ∧
    (∀ r ∈ s.reaps, ∃ e ∈ s.exits, e.id = r.child ∧ r.pid = e.pid ∧
      r.status = (if r.call = .wait false then none else some e.status) ∧
      (r.reaper = e.forker ∨ r.reaper = (s.slot s.initproc).id ∧ e.forker ∈ s.exits.map (·.id))) ∧
    (∀ p, (s.slot p).state.Live ∨ (s.slot p).state = .zombie → p ≠ s.initproc →
      ∃ q, (s.slot p).parent = some q ∧ (s.slot q).state.Live) ∧
    (∀ p q, (s.slot q).state = .sleeping → (s.slot q).chan = some (.proc q) → (s.slot p).parent = some q →
      (s.slot p).state ≠ .zombie) := by
  have h : Inv s := hs.invariant (P := Inv) (fun s ⟨ticks, beyond, h⟩ => h ▸ .boot ticks beyond) fun s a s' h _ hs => h.step hs
  refine ⟨h.exits, h.reaps, h.reap, fun p hp hne => ?_, h.wait⟩
  obtain ⟨q, hq, hl, -⟩ := h.parent p hp hne
  exact ⟨q, hq, hl⟩

/-- The first process waits for its child, which exits with status 7. -/
theorem exits_reaped_once_seven : ∃ s : Ptable, (∃ r ∈ s.reaps, r.pid = 2 ∧ r.status = some 7) ∧ (s.reaps.map (·.child)).Nodup := by
  obtain ⟨s, hs, hseven⟩ : ∃ s, runList step (boot 0 0) [.dispatch 0, .fork 0, .forkCopies 0, .forkEnds 0, .wait 0 (.wait true), .dispatch 1,
      .exit 1 7, .dispatch 0, .waitAgain 0] = .ok s ∧ ∃ r ∈ s.reaps, r.pid = 2 ∧ r.status = some 7 := by
    decide +kernel
  exact ⟨s, hseven, (exits_reaped_once (.runList (fun _ _ => trivial) (.init ⟨0, 0, rfl⟩) hs)).2.1⟩

/-- In every interleaving the parents of a process lead to init. -/
theorem descends_from_init (hs : Reachable step (fun _ _ => True) (fun s => ∃ ticks beyond, s = boot ticks beyond) s)
    {p : ProcIdx} (hp : (s.slot p).Alive) : Relation.ReflTransGen (fun p q => (s.slot p).parent = some q) p s.initproc := by
  have h : Inv s := hs.invariant (P := Inv) (fun s hb => by obtain ⟨ticks, beyond, rfl⟩ := hb; exact .boot ticks beyond)
    fun s a s' h _ hs => h.step hs
  -- A parent other than init forked its child, and is older.
  induction hid : (s.slot p).id using Nat.strong_induction_on generalizing p with
  | _ n ih =>
    by_cases hinit : p = s.initproc
    · rw [hinit]
    obtain ⟨q, hq, hlive, hforker | ⟨hiid, -⟩⟩ := h.parent p hp hinit
    · have hlt : (s.slot q).id < n := by
        rw [hforker, ← hid]
        exact h.older p hp hinit
      exact .head hq (ih _ hlt (.inl hlive) rfl)
    · have hused : ∀ {q}, (s.slot q).state.Live → (s.slot q).state ≠ .unused := fun hl hu => by rw [hu] at hl; exact hl
      rw [← h.id_inj q _ (hused hlive) (hused h.init) hiid]
      exact .single hq

/-- The child of the first process has a child. -/
theorem grandchild_descends : ∃ s : Ptable, (s.slot 2).parent = some 1 ∧
    Relation.ReflTransGen (fun p q => (s.slot p).parent = some q) 2 s.initproc := by
  obtain ⟨s, hs, hparent, hstate⟩ : ∃ s, runList step (boot 0 0) [.dispatch 0, .fork 0, .forkCopies 0, .forkEnds 0, .dispatch 1, .fork 1,
      .forkCopies 1, .forkEnds 1] = .ok s ∧ (s.slot 2).parent = some 1 ∧ (s.slot 2).state = .runnable := by
    decide +kernel
  exact ⟨s, hparent, descends_from_init (.runList (fun _ _ => trivial) (.init ⟨0, 0, rfl⟩) hs)
    (.inl (by rw [hstate]; trivial))⟩

end Ptable
end Xv6
