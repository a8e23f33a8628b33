import Xv6.Theorems.LogInv

/-! Every step of the log machine keeps its invariant. -/

namespace Xv6
open Function (update update_of_ne update_self)
open Outcome (bind_eq_ok)
namespace Sys
variable {Pid : Type} [Fintype Pid] {cfg : LogCfg} {d₀ : Nat → Block} {s t u : Sys Pid} {p q : Pid}
  {pc pc' : LogPc}

/-! ### Processes -/

theorem Ctl.same (h : s.Ctl) (same : SameCtl s t) : t.Ctl where
  one := by rw [same.proc]; exact h.one
  logging := by rw [same.proc, same.committing, same.booting]; exact h.logging
  excl := by rw [same.proc]; exact h.excl
  count := by rw [same.proc, same.outstanding]; exact h.count
  chg := fun i q g hi hg => by
    rw [same.proc]
    exact h.chg i q g (same.hold i q g hi hg) hg
  boot := by rw [same.committing, same.booting]; exact h.boot

theorem Ctl.goto [DecidableEq Pid] (h : s.Ctl) (hp : s.proc p = .log pc) : (s.goto p pc').Ctl := by
  have back : ∀ q x, (s.goto p pc').proc q = .log x → ∃ y, s.proc q = .log y := fun q x hq => by
    by_cases hqp : q = p
    · exact ⟨pc, hqp ▸ hp⟩
    · simp only [Sys.goto, setProc, update_of_ne hqp] at hq
      exact ⟨x, hq⟩
  have isOp : ∀ q, ((s.goto p pc').proc q).isOp = (s.proc q).isOp := fun q => by
    by_cases hqp : q = p
    · subst hqp
      simp [Sys.goto, setProc, hp, PState.isOp]
    · simp only [Sys.goto, setProc, update_of_ne hqp]
  refine ⟨fun q r x y hq hr => ?_, ⟨fun ⟨q, x, hq⟩ => ?_, fun hf => ?_⟩, fun q x r hq => ?_, ?_, fun i q g hi hg => ?_,
    h.boot⟩
  · obtain ⟨x', hq'⟩ := back q x hq
    obtain ⟨y', hr'⟩ := back r y hr
    exact h.one q r x' y' hq' hr'
  · obtain ⟨x', hq'⟩ := back q x hq
    exact h.logging.mp ⟨q, x', hq'⟩
  · exact ⟨p, pc', by simp [Sys.goto, setProc]⟩
  · obtain ⟨x', hq'⟩ := back q x hq
    rw [isOp]
    exact h.excl q x' r hq'
  · simp only [isOp]
    exact h.count
  · rw [isOp]
    exact h.chg i q g hi hg

/-! ### Steps outside the log code -/

theorem Inv.silent (inv : s.Inv cfg d₀) (base : t.Base cfg) (face : t.face = s.face) (same : SameCtl s t)
    (held : ∀ p pc i b, s.proc p = .log pc → s.Held p i b → t.Held p i b) : t.Inv cfg d₀ where
  base := base
  ctl := inv.ctl.same same
  quiet := fun h => by
    rw [face]
    exact inv.quiet (same.proc ▸ h)
  log := fun p pc hp => by
    rw [same.proc] at hp
    rw [face]
    exact (inv.log p pc hp).mono fun i b => held p pc i b hp

theorem Inv.bread_step {b : Nat} {i : BufIdx} (inv : s.Inv cfg d₀) (h : s.bread p b = .ok (i, t)) : t.Inv cfg d₀ := by
  obtain ⟨base, face, same, -, held⟩ := inv.base.bread h
  exact inv.silent base face same.toSameCtl fun q _ j c _ => held q j c

theorem Inv.brelse_step {i : BufIdx} (inv : s.Inv cfg d₀) (hp : ∀ pc, s.proc p ≠ .log pc) (hi : s.hold i = some (p, .read))
    (h : s.brelse i = .ok t) : t.Inv cfg d₀ := by
  obtain ⟨base, face, same, held⟩ := inv.base.brelse (not_chg_of_read hi) h
  refine inv.silent base face same.toSameCtl fun q pc j c hq hj => held q j c ?_ hj
  rintro rfl
  have := hi.symm.trans hj.1
  cases this
  exact hp pc hq

theorem Inv.quiet_of_op (inv : s.Inv cfg d₀) (hp : (s.proc p).isOp = true) :
    (∀ q pc, s.proc q ≠ .log pc) ∧ s.face.Quiet cfg d₀ := by
  have hno : ∀ q pc, s.proc q ≠ .log pc := fun q pc hq => by
    rw [inv.ctl.excl q pc p hq] at hp
    cases hp
  exact ⟨hno, inv.quiet hno⟩

theorem Ctl.stage {i : BufIdx} {g g' : Stage} (h : s.Ctl) (hp : (s.proc p).isOp = true) (hproc : t.proc = s.proc)
    (hc : t.committing = s.committing) (hbt : t.booting = s.booting) (ho : t.outstanding = s.outstanding)
    (hi : s.hold i = some (p, g)) (hh : t.hold = update s.hold i (some (p, g'))) : t.Ctl where
  one := by rw [hproc]; exact h.one
  logging := by rw [hproc, hc, hbt]; exact h.logging
  excl := by rw [hproc]; exact h.excl
  count := by rw [hproc, ho]; exact h.count
  chg := fun j q x hj hx => by
    rw [hproc]
    rw [hh] at hj
    by_cases hji : j = i
    · subst hji
      rw [update_self] at hj
      cases hj
      exact hp
    · rw [update_of_ne hji] at hj
      exact h.chg j q x hj hx
  boot := by rw [hc, hbt]; exact h.boot

theorem Inv.of_quiet (hno : ∀ q pc, t.proc q ≠ .log pc) (base : t.Base cfg) (ctl : t.Ctl)
    (quiet : t.face.Quiet cfg d₀) : t.Inv cfg d₀ where
  base := base
  ctl := ctl
  quiet := fun _ => quiet
  log := fun q pc hq => absurd hq (hno q pc)

theorem Inv.modify_step {i : BufIdx} {g : Stage} (inv : s.Inv cfg d₀) (hp : (s.proc p).isOp = true)
    (hi : s.hold i = some (p, g)) (hhome : cfg.Home (s.st.buf i).blockno) (x : Block) :
    Inv cfg d₀ { s with st := s.st.setData i x, hold := update s.hold i (some (p, .changed)) } := by
  obtain ⟨hno, quiet⟩ := inv.quiet_of_op hp
  obtain ⟨hv, hat, -⟩ := inv.base.at_of_hold hi
  let t : Sys Pid := { s with st := s.st.setData i x, hold := update s.hold i (some (p, .changed)) }
  have hh : t.hold = update s.hold i (some (p, .changed)) := rfl
  have hci : t.Chg i := (chg_update_self hh).mpr (by simp)
  obtain ⟨ok, hview, hat', hpin⟩ := inv.base.store.setData hat hv hci (fun j hj => (chg_update hh j hj).mpr) x
  have hface : t.face = s.face.modified (s.st.buf i).blockno x := by
    simp only [face, Face.modified, chg_enter hh (by simp) hat' hat]
    rw [show t.st.view = _ from hview, show t.st.Pinned = s.st.Pinned from funext fun c => propext (hpin c)]
    rfl
  refine .of_quiet hno (inv.base.of_stage hi hh ok rfl (fun j => ?_) fun _ => hhome)
    (inv.ctl.stage hp rfl rfl rfl rfl hi hh) (hface ▸ quiet.modified x)
  by_cases hji : j = i
  · subst hji
    simp [Store.setData]
  · simp [Store.setData, Store.setBuf_buf_of_ne _ hji]

theorem Inv.logWriteCheck_step {i : BufIdx} {g : Stage} (inv : s.Inv cfg d₀) (hp : (s.proc p).isOp = true)
    (hi : s.hold i = some (p, g)) (hhome : cfg.Home (s.st.buf i).blockno) (h : s.logWriteCheck cfg p i = .ok t) :
    t.Inv cfg d₀ := by
  unfold Sys.logWriteCheck at h
  split at h
  · cases h
  · split at h
    · cases h
    · cases h
      obtain ⟨hno, quiet⟩ := inv.quiet_of_op hp
      obtain ⟨-, hat, -⟩ := inv.base.at_of_hold hi
      let t : Sys Pid := { s with hold := update s.hold i (some (p, .checked)) }
      have hh : t.hold = update s.hold i (some (p, .checked)) := rfl
      have ok : t.st.Ok t.Chg := inv.base.store.mono fun j hj => by
        by_cases hji : j = i
        · subst hji
          exact (chg_update_self hh).mpr (by simp)
        · exact (chg_update hh j hji).mpr hj
      have hface : t.face = s.face.checked (s.st.buf i).blockno := by
        simp only [face, Face.checked, chg_enter hh (by simp) (fun _ _ => Iff.rfl) hat]
        rfl
      exact .of_quiet hno (inv.base.of_stage hi hh ok rfl (fun j => ⟨rfl, rfl, rfl⟩) fun _ => hhome)
        (inv.ctl.stage hp rfl rfl rfl rfl hi hh) (hface ▸ quiet.checked)

theorem Inv.logWriteAbsorb_step {i : BufIdx} {id : Nat} (inv : s.Inv cfg d₀) (hp : (s.proc p).isOp = true)
    (hi : s.hold i = some (p, .checked)) : (s.logWriteAbsorb p id i).Inv cfg d₀ := by
  obtain ⟨hno, quiet⟩ := inv.quiet_of_op hp
  obtain ⟨hv, hat, hsize⟩ := inv.base.at_of_hold hi
  have hhome : cfg.Home (s.st.buf i).blockno := inv.base.home i ⟨p, .checked, hi, by simp⟩
  have hh : (s.logWriteAbsorb p id i).hold = update s.hold i (some (p, .read)) := rfl
  obtain ⟨ok, hview, hat', hpin⟩ :=
    inv.base.store.pin hat hv fun j hj => (chg_update hh j hj).mpr
  have hface : (s.logWriteAbsorb p id i).face =
      s.face.logged { op := id, blockno := (s.st.buf i).blockno, data := (s.st.buf i).data } := by
    simp only [face, Face.logged, chg_leave inv.base hh hat' hat]
    rw [show (s.logWriteAbsorb p id i).st.view = _ from hview,
      show (s.logWriteAbsorb p id i).st.Pinned = _ from funext fun c => propext (hpin c)]
    rfl
  refine .of_quiet hno (inv.base.of_stage hi hh ok rfl (fun j => ?_) fun hg => absurd rfl hg)
    (inv.ctl.stage hp rfl rfl rfl rfl hi hh) ?_
  · by_cases hji : j = i
    · subst hji
      simp [Sys.logWriteAbsorb]
    · simp [Sys.logWriteAbsorb, Store.setBuf_buf_of_ne _ hji]
  · rw [hface]
    exact quiet.logged (inv.base.store.view_of_valid hat hv).symm hhome hsize

/-! ### `begin_op`, `end_op` and a crash -/

section Ops
variable [DecidableEq Pid]

omit [Fintype Pid] in
theorem isOp_setProc (s : Sys Pid) (x : PState) (q : Pid) :
    ((s.setProc p x).proc q).isOp = if q = p then x.isOp else (s.proc q).isOp := by
  by_cases hqp : q = p
  · subst hqp
    simp [setProc]
  · simp [setProc, hqp]

theorem Inv.beginOp_step (inv : s.Inv cfg d₀) (hboot : s.booting = false) (hp : s.proc p = .idle)
    (h : s.beginOp p = .ok t) : t.Inv cfg d₀ := by
  unfold Sys.beginOp at h
  split at h
  · cases h
  · rename_i hcom
    split at h
    · cases h
    · cases h
      have hno : ∀ q pc, s.proc q ≠ .log pc := fun q pc hq => by
        rcases inv.ctl.logging.mp ⟨q, pc, hq⟩ with h | h
        · exact hcom h
        · rw [hboot] at h
          cases h
      have hno' : ∀ q pc, (s.setProc p (.op s.nextOp)).proc q ≠ .log pc := fun q pc hq => by
        by_cases hqp : q = p
        · subst hqp
          simp [setProc] at hq
        · simp only [setProc, update_of_ne hqp] at hq
          exact hno q pc hq
      refine .of_quiet hno' ⟨inv.base.store, inv.base.size, inv.base.busy, inv.base.valid, inv.base.home⟩
        ⟨fun q r x y hq => absurd hq (hno' q x), ⟨fun ⟨q, x, hq⟩ => absurd hq (hno' q x), fun hf => ?_⟩,
          fun q x r hq => absurd hq (hno' q x), ?_, fun i q g hi hg => ?_, inv.ctl.boot⟩ (inv.quiet hno)
      · obtain ⟨q, x, hq⟩ := inv.ctl.logging.mpr hf
        exact absurd hq (hno q x)
      · have hset : (Finset.univ.filter fun q => ((s.setProc p (.op s.nextOp)).proc q).isOp = true) =
            insert p (Finset.univ.filter fun q => (s.proc q).isOp = true) := by
          ext q
          simp only [Finset.mem_filter, Finset.mem_univ, true_and, Finset.mem_insert, isOp_setProc]
          by_cases hqp : q = p <;> simp [hqp, PState.isOp]
        have hnew : p ∉ Finset.univ.filter fun q => (s.proc q).isOp = true := fun hmem => by
          have := (Finset.mem_filter.mp hmem).2
          rw [hp] at this
          cases this
        simp only [hset, Finset.card_insert_of_notMem hnew, inv.ctl.count]
      · rw [isOp_setProc]
        split
        · rfl
        · exact inv.ctl.chg i q g hi hg

theorem Inv.endOp_step (inv : s.Inv cfg d₀) (hp : (s.proc p).isOp = true) (hlogged : ¬s.Unlogged p)
    (h : s.endOp p = .ok t) : t.Inv cfg d₀ := by
  obtain ⟨hno, quiet⟩ := inv.quiet_of_op hp
  -- Whoever is changing a buffer is another process, still in its operation.
  have hother : ∀ i q g, s.hold i = some (q, g) → g ≠ .read → q ≠ p ∧ (s.proc q).isOp = true := by
    intro i q g hi hg
    refine ⟨?_, inv.ctl.chg i q g hi hg⟩
    rintro rfl
    refine hlogged ⟨i, ?_⟩
    cases g with
    | read => exact absurd rfl hg
    | changed => exact Or.inl hi
    | checked => exact Or.inr hi
  have hcount : ∀ x : PState, x.isOp = false →
      (Finset.univ.filter fun q => ((s.setProc p x).proc q).isOp = true).card = s.outstanding - 1 := by
    intro x hx
    have hset : (Finset.univ.filter fun q => ((s.setProc p x).proc q).isOp = true) =
        (Finset.univ.filter fun q => (s.proc q).isOp = true).erase p := by
      ext q
      simp only [Finset.mem_filter, Finset.mem_univ, true_and, Finset.mem_erase, isOp_setProc]
      by_cases hqp : q = p <;> simp [hqp, hx]
    rw [hset, Finset.card_erase_of_mem (by simpa using hp), inv.ctl.count]
  have hno' : ∀ (x : PState) (q : Pid) (pc : LogPc), (s.setProc p x).proc q = .log pc → q = p ∧ x = .log pc := by
    intro x q pc hq
    by_cases hqp : q = p
    · subst hqp
      simp only [setProc, update_self] at hq
      exact ⟨rfl, hq⟩
    · simp only [setProc, update_of_ne hqp] at hq
      exact absurd hq (hno q pc)
  have base : ∀ (x : PState) (n : Nat) (c : Bool), Base cfg { s.setProc p x with outstanding := n, committing := c } :=
    fun _ _ _ => ⟨inv.base.store, inv.base.size, inv.base.busy, inv.base.valid, inv.base.home⟩
  simp only [Sys.endOp] at h
  split at h
  · cases h
  · rename_i hcom
    have hflags : ¬(s.committing = true ∨ s.booting = true) := fun hf => by
      obtain ⟨q, x, hq⟩ := inv.ctl.logging.mpr hf
      exact hno q x hq
    split at h
    · rename_i hzero
      cases h
      -- The last operation has left, so nobody is in one.
      have hidle : ∀ q, ((s.goto p .commit).proc q).isOp = false := fun q => by
        have := hcount (.log .commit) rfl
        rw [hzero, Finset.card_eq_zero, Finset.filter_eq_empty_iff] at this
        simpa [Sys.goto] using this (Finset.mem_univ q)
      have hstill : ∀ i q g, s.hold i = some (q, g) → g = .read := by
        intro i q g hi
        by_contra hg
        obtain ⟨hqp, hq⟩ := hother i q g hi hg
        have := hidle q
        rw [Sys.goto, isOp_setProc, if_neg hqp, hq] at this
        cases this
      refine ⟨base _ _ _, ⟨fun q r x y hq hr => ?_, ⟨fun _ => Or.inl rfl, fun _ => ⟨p, .commit, ?_⟩⟩, fun q x r _ => hidle r,
        ?_, fun i q g hi hg => absurd (hstill i q g hi) hg, fun hb => absurd (Or.inr hb) hflags⟩, fun hnone => ?_, fun q x hq => ?_⟩
      · exact (hno' _ q x hq).1.trans (hno' _ r y hr).1.symm
      · simp [Sys.goto, setProc]
      · exact (hcount (.log .commit) rfl).symm
      · exact absurd (by simp [Sys.goto, setProc]) (hnone p .commit)
      · obtain ⟨rfl, hx⟩ := hno' _ q x hq
        cases hx
        refine ⟨quiet, ?_⟩
        rintro b ⟨i, -, r, g, hi, hg⟩
        exact hg (hstill i r g hi)
    · cases h
      refine .of_quiet (fun q x hq => ?_) (base _ _ _)
        ⟨fun q r x y hq => ?_, ⟨fun ⟨q, x, hq⟩ => ?_, fun hf => absurd hf hflags⟩, fun q x r hq => ?_, ?_,
          fun i q g hi hg => ?_, inv.ctl.boot⟩ quiet
      · cases (hno' _ q x hq).2
      · cases (hno' _ q x hq).2
      · cases (hno' _ q x hq).2
      · cases (hno' _ q x hq).2
      · exact (hcount .idle rfl).symm
      · obtain ⟨hqp, hq⟩ := hother i q g hi hg
        rw [isOp_setProc, if_neg hqp]
        exact hq

theorem Inv.crash_step (inv : s.Inv cfg d₀) (p : Pid) : (s.crash p).Inv cfg d₀ := by
  have hproc : ∀ q pc, (s.crash p).proc q = .log pc → q = p ∧ pc = .readHead := by
    intro q pc hq
    by_cases hqp : q = p
    · subst hqp
      simp only [Sys.crash, update_self] at hq
      cases hq
      exact ⟨rfl, rfl⟩
    · simp [Sys.crash, hqp] at hq
  have hop : ∀ q, ((s.crash p).proc q).isOp = false := fun q => by
    by_cases hqp : q = p
    · subst hqp
      simp [Sys.crash, PState.isOp]
    · simp [Sys.crash, hqp, PState.isOp]
  have hchg : ∀ i, ¬(s.crash p).Chg i := by
    rintro i ⟨q, g, hi, -⟩
    cases hi
  obtain ⟨ok, hview, -, hpin⟩ := Store.binit_ok s.st.disk s.st.disksize
  refine ⟨⟨ok, inv.base.size, fun i => rfl, fun i hi => (nomatch hi), fun i hi => absurd hi (hchg i)⟩,
    ⟨fun q r x y hq hr => (hproc q x hq).1.trans (hproc r y hr).1.symm,
      ⟨fun _ => Or.inr rfl, fun _ => ⟨p, .readHead, by simp [Sys.crash]⟩⟩, fun q x r _ => hop r, ?_,
      fun i q g hi => (nomatch hi), fun _ => rfl⟩, fun hnone => ?_, fun q x hq => ?_⟩
  · simp only [hop, Bool.false_eq_true, Finset.filter_false, Finset.card_empty]
    rfl
  · exact absurd (by simp [Sys.crash]) (hnone p .readHead)
  · obtain ⟨rfl, rfl⟩ := hproc q x hq
    exact ⟨rfl, fun b ⟨i, _, hi⟩ => hchg i hi, inv.recoverable, hpin⟩

/-! ### Log code -/

theorem Inv.goto_step (inv : s.Inv cfg d₀) (hp : s.proc p = .log pc) (base : t.Base cfg) (same : SameCtl s t)
    (hat : AtPc cfg d₀ t.face (t.Held p) pc') : (t.goto p pc').Inv cfg d₀ where
  base := ⟨base.store, base.size, base.busy, base.valid, base.home⟩
  ctl := (inv.ctl.same same).goto (same.proc ▸ hp)
  quiet := fun hnone => absurd (by simp [Sys.goto, setProc]) (hnone p pc')
  log := fun q x hq => by
    have ctl : (t.goto p pc').Ctl := (inv.ctl.same same).goto (same.proc ▸ hp)
    have hpc : (t.goto p pc').proc p = .log pc' := by simp [Sys.goto, setProc]
    obtain rfl := ctl.one q p x pc' hq hpc
    rw [hpc] at hq
    cases hq
    exact hat

omit [DecidableEq Pid] in
theorem Ctl.not_chg (h : s.Ctl) (hp : s.proc p = .log pc) (i : BufIdx) : ¬s.Chg i := by
  rintro ⟨q, g, hi, hg⟩
  have := h.excl p pc q hp
  rw [h.chg i q g hi hg] at this
  cases this

theorem Inv.log_bread {b : Nat} {i : BufIdx} (inv : s.Inv cfg d₀) (hp : s.proc p = .log pc)
    (h : s.bread p b = .ok (i, u))
    (hat : u.Held p i b → (∀ j c, s.Held p j c → u.Held p j c) → AtPc cfg d₀ s.face (u.Held p) pc') :
    (u.goto p pc').Inv cfg d₀ := by
  obtain ⟨base, face, same, held, keep⟩ := inv.base.bread h
  refine inv.goto_step hp base same.toSameCtl ?_
  rw [face]
  exact hat held (keep p)

theorem Inv.log_brelse {i : BufIdx} (inv : s.Inv cfg d₀) (hp : s.proc p = .log pc) (h : s.brelse i = .ok u)
    (hat : AtPc cfg d₀ s.face (u.Held p) pc') : (u.goto p pc').Inv cfg d₀ := by
  obtain ⟨base, face, same, -⟩ := inv.base.brelse (inv.ctl.not_chg hp i) h
  refine inv.goto_step hp base same.toSameCtl ?_
  rw [face]
  exact hat

theorem Inv.log_goto (inv : s.Inv cfg d₀) (hp : s.proc p = .log pc) (hat : AtPc cfg d₀ s.face (s.Held p) pc') :
    (s.goto p pc').Inv cfg d₀ :=
  inv.goto_step hp inv.base ⟨rfl, rfl, rfl, rfl, rfl, fun _ _ _ h _ => h⟩ hat

theorem getElem?_getD {l : List Nat} {t : Nat} (h : t < l.length) : l[t]? = some (l.getD t 0) := by
  simp [List.getD, h]

section
variable (inv : s.Inv cfg d₀)
include inv

theorem Inv.readHead_step (hp : s.proc p = .log .readHead)
    (h : s.logCode cfg p .readHead = .ok t) : t.Inv cfg d₀ := by
  obtain ⟨⟨i, u⟩, hr, h⟩ := bind_eq_ok.mp h
  cases h
  obtain ⟨base, face, same, held, -⟩ := inv.base.bread hr
  have booted : s.face.Booted cfg d₀ := inv.log p .readHead hp
  have hdata : (u.st.buf i).data = s.face.disk cfg.start := by
    rw [held.data base, face]
    exact inv.base.coherent (booted.pinned _) (booted.still _)
  refine inv.goto_step hp (t := { u with lh := decodeHead (u.st.buf i).data })
    ⟨base.store, base.size, base.busy, base.valid, base.home⟩
    ⟨same.outstanding, same.committing, same.booting, same.proc, same.nextOp, same.hold⟩ ?_
  show Face.Installing cfg d₀ { u.face with lh := decodeHead (u.st.buf i).data } 0
  rw [hdata, face]
  exact booted.readHead

omit [DecidableEq Pid] in
/-- The buffer of the first log block is not pinned, so the header in memory has room left in the log. -/
theorem Inv.lh_short {i : BufIdx} {b : Nat} (h : s.bread p b = .ok (i, u)) (hb : ¬cfg.Home b)
    (quiet : s.face.Quiet cfg d₀) : s.lh.length < NBUF := by
  obtain ⟨-, face, same, held, -⟩ := inv.base.bread h
  have hpin : ∀ c, u.st.Pinned c ↔ s.st.Pinned c := fun c => iff_of_eq (congrFun (congrArg Face.pinned face) c)
  have := lh_lt_nbuf (s := u) (i := i) (b := b) (by rw [same.lh]; exact quiet.nodup)
    (fun c hc => (hpin c).mpr ((quiet.pinned c).mpr (by rw [same.lh] at hc; exact hc))) held.2
    fun hc => hb (quiet.names b (by rw [same.lh] at hc; exact hc)).1
  rwa [same.lh] at this

theorem Inv.writeLog_step {tail : Nat} (hp : s.proc p = .log (.writeLog tail))
    (h : s.logCode cfg p (.writeLog tail) = .ok t) : t.Inv cfg d₀ := by
  obtain ⟨wrote, hle, hpos, hshort⟩ := inv.log p _ hp
  simp only [Sys.logCode] at h
  split at h
  · rename_i ht
    obtain ⟨⟨i, u⟩, hr, h⟩ := bind_eq_ok.mp h
    cases h
    refine inv.log_bread hp hr fun held _ => ⟨wrote, ht, ?_, held⟩
    -- Only the first round has to find out that the transaction fits into the log.
    rcases Nat.eq_zero_or_pos tail with h0 | h0
    · subst h0
      have hsize := cfg.size_ge
      have hone : 0 + 1 < cfg.size := lt_of_lt_of_le (by decide) hsize
      have hlog : ¬cfg.Home (cfg.start + 0 + 1) := Face.log_not_home hone
      exact lt_of_lt_of_le (inv.lh_short hr hlog wrote.toQuiet) hsize
    · exact hshort h0
  · rename_i ht
    cases h
    have hlen : tail = s.lh.length := Nat.le_antisymm hle (Nat.not_lt.mp ht)
    exact inv.log_goto hp ⟨hlen ▸ wrote, hshort (hlen ▸ hpos)⟩

theorem Inv.writeLogCopy_step {tail : Nat} {dst src : BufIdx}
    (hp : s.proc p = .log (.writeLogCopy tail dst src)) (h : s.logCode cfg p (.writeLogCopy tail dst src) = .ok t) :
    t.Inv cfg d₀ := by
  obtain ⟨u, hw, h⟩ := bind_eq_ok.mp h
  cases h
  obtain ⟨wrote, ht, hshort, hdst, hsrc⟩ := inv.log p _ hp
  obtain ⟨base, face, same, -⟩ := inv.base.fillWrite hdst hw
  refine inv.goto_step hp base same.toSameCtl ?_
  rw [face, hsrc.data inv.base]
  exact ⟨wrote.wrote (getElem?_getD ht) hshort, ht, hshort⟩

theorem Inv.writeHeadFill_step {erase : Bool} {i : BufIdx}
    (hp : s.proc p = .log (.writeHeadFill erase i)) (h : s.logCode cfg p (.writeHeadFill erase i) = .ok t) :
    t.Inv cfg d₀ := by
  obtain ⟨u, hw, h⟩ := bind_eq_ok.mp h
  cases h
  cases erase with
  | false =>
    obtain ⟨wrote, hshort, held⟩ := inv.log p _ hp
    obtain ⟨base, face, same, -⟩ := inv.base.fillWrite held hw
    have hlen : s.lh.length < NBUF := lh_lt_nbuf wrote.nodup (fun c hc => (wrote.pinned c).mpr hc) held.2
      fun hc => Face.start_not_home cfg (wrote.names _ hc).1
    have hx : decodeHead (encodeHead (s.st.buf i).data s.lh) = s.lh := by
      refine decodeHead_encodeHead _ ?_ fun b hb => ?_
      · simp only [NBUF, MAXOPBLOCKS, BSIZE] at hlen ⊢
        omega
      · have := (wrote.names b hb).2
        have := cfg.disksize_lt
        omega
    refine inv.goto_step hp (t := { u with commits := u.commits ++ [u.cur], cur := [] })
      ⟨base.store, base.size, base.busy, base.valid, base.home⟩
      ⟨same.outstanding, same.committing, same.booting, same.proc, same.nextOp, same.hold⟩ ?_
    show Face.Installing cfg d₀ u.face.committed 0
    rw [face]
    exact wrote.committed hshort hx
  | true =>
    obtain ⟨cleared, held⟩ := inv.log p _ hp
    obtain ⟨base, face, same, -⟩ := inv.base.fillWrite held hw
    have hlh : s.lh = [] := cleared.lh
    refine inv.goto_step hp (t := u) base same.toSameCtl ?_
    rw [face]
    refine ⟨cleared.erased ?_ fun b => inv.base.coherent (cleared.pinned b) (cleared.still b), cleared.still, hlh⟩
    rw [hlh]
    exact decodeHead_encodeHead_nil _

theorem Inv.installCopy_step {tail : Nat} {lbuf dbuf : BufIdx}
    (hp : s.proc p = .log (.installCopy tail lbuf dbuf)) (h : s.logCode cfg p (.installCopy tail lbuf dbuf) = .ok t) :
    t.Inv cfg d₀ := by
  obtain ⟨u, hw, h⟩ := bind_eq_ok.mp h
  cases h
  obtain ⟨inst, ht, hl, hd⟩ := inv.log p _ hp
  obtain ⟨base, face, same, -⟩ := inv.base.fillWrite hd hw
  have hnot : ¬cfg.Home (cfg.start + tail + 1) := Face.log_not_home (by have := inst.short; omega)
  -- The log block is not pinned: pinned blocks are home blocks.
  have hdata : (s.st.buf lbuf).data = s.face.disk (cfg.start + tail + 1) := by
    rw [hl.data inv.base]
    refine inv.base.coherent (fun hpin => hnot ?_) (inst.still _)
    exact (inst.names _ (List.mem_of_mem_drop (inst.pinned _ hpin).1)).1
  refine inv.goto_step hp base same.toSameCtl ?_
  rw [face, hdata]
  exact ⟨inst.wrote (getElem?_getD ht), ht⟩

theorem Inv.done_step (hp : s.proc p = .log .done) (h : s.logCode cfg p .done = .ok t) :
    t.Inv cfg d₀ ∧ t.face = s.face := by
  cases h
  obtain ⟨quiet, hstill, -⟩ := inv.log p _ hp
  have hno : ∀ q pc, (s.setProc p .idle).proc q ≠ .log pc := fun q pc hq => by
    by_cases hqp : q = p
    · subst hqp
      simp [setProc] at hq
    · simp only [setProc, update_of_ne hqp] at hq
      exact hqp (inv.ctl.one q p pc .done hq hp)
  have hop : ∀ q, ((s.setProc p .idle).proc q).isOp = false := fun q => by
    rw [isOp_setProc]
    split
    · rfl
    · exact inv.ctl.excl p .done q hp
  refine ⟨.of_quiet hno ⟨inv.base.store, inv.base.size, inv.base.busy, inv.base.valid, inv.base.home⟩
    ⟨fun q r x y hq => absurd hq (hno q x), ⟨fun ⟨q, x, hq⟩ => absurd hq (hno q x), fun hf => ?_⟩,
      fun q x r hq => absurd hq (hno q x), ?_, fun i q g hi hg => absurd ⟨q, g, hi, hg⟩ (inv.ctl.not_chg hp i),
      fun hb => nomatch hb⟩ quiet, rfl⟩
  · cases hb : s.booting <;> simp [hb, inv.ctl.boot] at hf
  · have hnone := inv.ctl.count
    simp only [fun q => inv.ctl.excl p .done q hp, Bool.false_eq_true, Finset.filter_false, Finset.card_empty] at hnone
    simp only [hop, Bool.false_eq_true, Finset.filter_false, Finset.card_empty]
    exact hnone

theorem Inv.logCode_step (hp : s.proc p = .log pc) (h : s.logCode cfg p pc = .ok t) :
    t.Inv cfg d₀ := by
  have hat := inv.log p pc hp
  cases pc with
  | readHead => exact inv.readHead_step hp h
  | readHeadRelse i =>
    obtain ⟨u, hr, h⟩ := bind_eq_ok.mp h
    cases h
    exact inv.log_brelse hp hr ⟨hat, Nat.zero_le _⟩
  | commit =>
    obtain ⟨quiet, hstill⟩ := hat
    simp only [Sys.logCode] at h
    split at h
    · rename_i hlen
      cases h
      have wrote : s.face.WroteLog cfg d₀ 0 := ⟨quiet, hstill, fun j b hj => absurd hj (Nat.not_lt_zero j)⟩
      exact inv.log_goto hp ⟨wrote, Nat.zero_le _, hlen, fun h0 => absurd h0 (Nat.lt_irrefl 0)⟩
    · rename_i hlen
      cases h
      exact inv.log_goto hp ⟨quiet, hstill, List.length_eq_zero_iff.mp (Nat.eq_zero_of_not_pos hlen)⟩
  | writeLog tail => exact inv.writeLog_step hp h
  | writeLogFrom tail dst =>
    obtain ⟨⟨i, u⟩, hr, h⟩ := bind_eq_ok.mp h
    cases h
    obtain ⟨wrote, ht, hshort, hdst⟩ := hat
    exact inv.log_bread hp hr fun held keep => ⟨wrote, ht, hshort, keep _ _ hdst, held⟩
  | writeLogCopy tail dst src => exact inv.writeLogCopy_step hp h
  | writeLogRelseFrom tail dst src =>
    obtain ⟨u, hr, h⟩ := bind_eq_ok.mp h
    cases h
    exact inv.log_brelse hp hr hat
  | writeLogRelseTo tail dst =>
    obtain ⟨u, hr, h⟩ := bind_eq_ok.mp h
    cases h
    obtain ⟨wrote, ht, hshort⟩ := hat
    exact inv.log_brelse hp hr ⟨wrote, ht, by omega, fun _ => hshort⟩
  | writeHead erase =>
    obtain ⟨⟨i, u⟩, hr, h⟩ := bind_eq_ok.mp h
    cases h
    cases erase with
    | false => exact inv.log_bread hp hr fun held _ => ⟨hat.1, hat.2, held⟩
    | true => exact inv.log_bread hp hr fun held _ => ⟨hat, held⟩
  | writeHeadFill erase i => exact inv.writeHeadFill_step hp h
  | writeHeadRelse erase i =>
    obtain ⟨u, hr, h⟩ := bind_eq_ok.mp h
    cases h
    cases erase with
    | false => exact inv.log_brelse hp hr ⟨hat, Nat.zero_le _⟩
    | true => exact inv.log_brelse hp hr hat
  | installTrans tail =>
    obtain ⟨inst, ht⟩ := hat
    simp only [Sys.logCode] at h
    split at h
    · rename_i hlt
      obtain ⟨⟨i, u⟩, hr, h⟩ := bind_eq_ok.mp h
      cases h
      exact inv.log_bread hp hr fun held _ => ⟨inst, hlt, held⟩
    · rename_i hge
      cases h
      have hlen : tail = s.lh.length := Nat.le_antisymm ht (Nat.not_lt.mp hge)
      subst hlen
      exact inv.log_goto hp inst
  | installDst tail lbuf =>
    obtain ⟨⟨i, u⟩, hr, h⟩ := bind_eq_ok.mp h
    cases h
    obtain ⟨inst, ht, hl⟩ := hat
    exact inv.log_bread hp hr fun held keep => ⟨inst, ht, keep _ _ hl, held⟩
  | installCopy tail lbuf dbuf => exact inv.installCopy_step hp h
  | installRelseLog tail lbuf dbuf =>
    obtain ⟨u, hr, h⟩ := bind_eq_ok.mp h
    cases h
    exact inv.log_brelse hp hr hat
  | installRelseDst tail dbuf =>
    obtain ⟨u, hr, h⟩ := bind_eq_ok.mp h
    cases h
    exact inv.log_brelse hp hr ⟨hat.1, hat.2⟩
  | clear =>
    cases h
    exact inv.goto_step hp (t := { s with lh := [] })
      ⟨inv.base.store, inv.base.size, inv.base.busy, inv.base.valid, inv.base.home⟩
      ⟨rfl, rfl, rfl, rfl, rfl, fun _ _ _ h _ => h⟩ (Face.Installing.cleared hat)
  | done => exact (inv.done_step hp h).1

/-! ### Runs -/

theorem Inv.step_ok {a : Act Pid} (h : s.step cfg a = .ok t) : t.Inv cfg d₀ := by
  cases a with
  | beginOp p =>
    simp only [Sys.step] at h
    split at h
    · rename_i hg
      exact inv.beginOp_step hg.1 hg.2 h
    · cases h
  | bread p b =>
    simp only [Sys.step] at h
    split at h
    · cases h
    · split at h
      · cases h
      · obtain ⟨⟨i, u⟩, hr, h⟩ := bind_eq_ok.mp h
        cases h
        exact inv.bread_step hr
  | modify p i x =>
    simp only [Sys.step] at h
    split at h
    · rename_i id hp
      split at h
      · rename_i hg
        cases h
        obtain ⟨hi | hi, hhome⟩ := hg
        · exact inv.modify_step (by rw [hp]; rfl) hi hhome x
        · exact inv.modify_step (by rw [hp]; rfl) hi hhome x
      · cases h
    · cases h
  | logWriteCheck p i =>
    simp only [Sys.step] at h
    split at h
    · rename_i id hp
      split at h
      · rename_i hg
        obtain ⟨hi | hi, hhome⟩ := hg
        · exact inv.logWriteCheck_step (by rw [hp]; rfl) hi hhome h
        · exact inv.logWriteCheck_step (by rw [hp]; rfl) hi hhome h
      · cases h
    · cases h
  | logWriteAbsorb p i =>
    simp only [Sys.step] at h
    split at h
    · rename_i id hp
      split at h
      · rename_i hi
        cases h
        exact inv.logWriteAbsorb_step (by rw [hp]; rfl) hi
      · cases h
    · cases h
  | brelse p i =>
    simp only [Sys.step] at h
    split at h
    · cases h
    · rename_i hnot
      split at h
      · rename_i hi
        exact inv.brelse_step (fun pc hpc => hnot pc hpc) hi h
      · cases h
  | endOp p =>
    simp only [Sys.step] at h
    split at h
    · rename_i id hp
      split at h
      · cases h
      · rename_i hl
        exact inv.endOp_step (by rw [hp]; rfl) hl h
    · cases h
  | log p =>
    simp only [Sys.step] at h
    split at h
    · rename_i pc hp
      exact inv.logCode_step hp h
    · cases h
  | crash p =>
    cases h
    exact inv.crash_step p

end

omit [DecidableEq Pid] in
theorem start_inv (cfg : LogCfg) (d₀ : Nat → Block) (hempty : decodeHead (d₀ cfg.start) = []) :
    (Sys.start cfg d₀ : Sys Pid).Inv cfg d₀ := by
  obtain ⟨ok, hview, -, hpin⟩ := Store.binit_ok d₀ cfg.disksize
  have hchg : ∀ i, ¬(Sys.start cfg d₀ : Sys Pid).Chg i := by
    rintro i ⟨q, g, hi, -⟩
    cases hi
  refine .of_quiet (fun q pc hq => nomatch hq)
    ⟨ok, rfl, fun i => rfl, fun i hi => (nomatch hi), fun i hi => absurd hi (hchg i)⟩
    ⟨fun q r x y hq => (nomatch hq), ⟨fun ⟨q, x, hq⟩ => (nomatch hq), fun hf => ?_⟩, fun q x r hq => (nomatch hq), ?_,
      fun i q g hi => (nomatch hi), fun hb => nomatch hb⟩
    ⟨hempty, fun b _ => rfl, fun b _ _ => congrFun hview b, List.nodup_nil, fun b => iff_of_false (hpin b) List.not_mem_nil,
      fun b hb => (nomatch hb), fun b => ⟨fun hb => (nomatch hb), fun ⟨r, hr, _⟩ => nomatch hr⟩⟩
  · rcases hf with hf | hf <;> cases hf
  · simp [Sys.start, PState.isOp]

theorem reachable_inv (hempty : decodeHead (d₀ cfg.start) = [])
    (h : Machine.Reachable (Sys.step cfg) (fun _ _ => True) (fun s : Sys Pid => s = Sys.start cfg d₀) s) : s.Inv cfg d₀ :=
  h.invariant (fun _ hs => hs ▸ start_inv cfg d₀ hempty) fun _ _ _ inv _ hs => inv.step_ok hs

end Ops
end Sys
end Xv6
