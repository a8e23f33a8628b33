import Xv6.Theorems.LogStep

/-! Crash atomicity of the log. The invariant of `LogStep` says what recovery leaves on disk; here we follow
    the records of the `log_write`s, to see that a commit takes all those of an operation or none. -/

namespace Xv6
open Outcome (bind_eq_ok)
open Machine
namespace Sys
variable {Pid : Type} {cfg : LogCfg} {d₀ : Nat → Block} {s t u : Sys Pid} {p q : Pid} {pc : LogPc}

/-! ### What the steps do to the records -/

/-- The parts of the state that the buffer operations of log code leave alone. -/
structure Kept (s t : Sys Pid) : Prop where
  proc : t.proc = s.proc
  booting : t.booting = s.booting
  nextOp : t.nextOp = s.nextOp
  cur : t.cur = s.cur
  commits : t.commits = s.commits
  history : t.history = s.history

theorem bread_kept {b : Nat} {i : BufIdx} (h : s.bread p b = .ok (i, t)) : Kept s t := by
  obtain ⟨⟨j, st⟩, -, h⟩ := bind_eq_ok.mp h
  cases h
  exact ⟨rfl, rfl, rfl, rfl, rfl, rfl⟩

theorem brelse_kept {i : BufIdx} (h : s.brelse i = .ok t) : Kept s t := by
  obtain ⟨st, -, h⟩ := bind_eq_ok.mp h
  cases h
  exact ⟨rfl, rfl, rfl, rfl, rfl, rfl⟩

theorem fillWrite_kept {i : BufIdx} {x : Block} (h : s.fillWrite i x = .ok t) : Kept s t := by
  obtain ⟨st, -, h⟩ := bind_eq_ok.mp h
  cases h
  exact ⟨rfl, rfl, rfl, rfl, rfl, rfl⟩

/-- No record is made and no operation begins. -/
structure SameRecs (s t : Sys Pid) : Prop where
  cur : t.cur = s.cur
  commits : t.commits = s.commits
  history : t.history = s.history
  nextOp : t.nextOp = s.nextOp
  op : ∀ q id, t.proc q = .op id → s.proc q = .op id

inductive Effect (s t : Sys Pid) : Prop
  /-- Outside log code. An operation that ends here is not the last one. -/
  | quiet (recs : SameRecs s t) (hlh : t.lh = s.lh) (hlog : ∀ q pc, s.proc q = .log pc → t.proc q = .log pc)
      (hout : t.outstanding = s.outstanding ∨ 0 < t.outstanding)
  /-- Into log code, or from one point of it to another. -/
  | logging (recs : SameRecs s t) (p : Pid) (pc : LogPc) (hp : t.proc p = .log pc)
  | finished (recs : SameRecs s t) (p : Pid) (hp : s.proc p = .log .done) (hlh : t.lh = s.lh)
  | began (p : Pid) (hcur : t.cur = s.cur) (hcommits : t.commits = s.commits) (hhist : t.history = s.history)
      (hnext : t.nextOp = s.nextOp + 1) (hp : t.proc p = .op s.nextOp) (hop : ∀ q, q ≠ p → t.proc q = s.proc q)
      (hidle : s.proc p = .idle) (hlh : t.lh = s.lh) (hout : t.outstanding = s.outstanding + 1)
      (hspace : s.lh.length + (s.outstanding + 1) * MAXOPBLOCKS ≤ LOGSIZE)
  | logged (p : Pid) (r : Rec) (hp : s.proc p = .op r.op) (hcur : t.cur = s.cur ++ [r])
      (hcommits : t.commits = s.commits) (hhist : t.history = s.history ++ [r]) (hnext : t.nextOp = s.nextOp)
      (hproc : t.proc = s.proc) (hlh : t.lh = if r.blockno ∈ s.lh then s.lh else s.lh ++ [r.blockno])
      (hout : t.outstanding = s.outstanding)
  | committed (hcur : t.cur = []) (hcommits : t.commits = s.commits ++ [s.cur]) (hhist : t.history = s.history)
      (hnext : t.nextOp = s.nextOp) (hop : ∀ q, (t.proc q).isOp = false) (p : Pid) (pc : LogPc) (hp : t.proc p = .log pc)
  | crashed (hcur : t.cur = []) (hcommits : t.commits = s.commits) (hhist : t.history = s.history)
      (hnext : t.nextOp = s.nextOp) (hop : ∀ q, (t.proc q).isOp = false) (p : Pid) (pc : LogPc) (hp : t.proc p = .log pc)

section
variable [DecidableEq Pid]

theorem op_of_setProc {x : PState} {q : Pid} {id : Nat} (hx : x.isOp = false) (h : (s.setProc p x).proc q = .op id) :
    s.proc q = .op id := by
  by_cases hqp : q = p
  · subst hqp
    simp only [setProc, Function.update_self] at h
    subst h
    cases hx
  · simpa only [setProc, Function.update_of_ne hqp] using h

theorem Kept.goto (k : Kept s u) (lh : List Nat) (pc : LogPc) : Effect s ({ u with lh := lh }.goto p pc) ∧
    ({ u with lh := lh }.goto p pc).booting = s.booting :=
  ⟨.logging ⟨k.cur, k.commits, k.history, k.nextOp, fun q id hq => by
    rw [← k.proc]
    exact op_of_setProc rfl hq⟩ p pc (by simp [Sys.goto, setProc]), k.booting⟩

/-- Log code keeps the records, except at the write that commits, and ends a recovery only at its end. -/
theorem logCode_effect [Fintype Pid] (ctl : s.Ctl) (hp : s.proc p = .log pc) (h : s.logCode cfg p pc = .ok t) :
    Effect s t ∧ (t.booting = s.booting ∨ pc = .done) := by
  have go : ∀ {u : Sys Pid} {lh pc'}, Kept s u → Effect s ({ u with lh := lh }.goto p pc') ∧
      (({ u with lh := lh }.goto p pc').booting = s.booting ∨ pc = .done) := fun k =>
    ⟨(k.goto _ _).1, Or.inl (k.goto (p := p) _ .done).2⟩
  have refl : Kept s s := ⟨rfl, rfl, rfl, rfl, rfl, rfl⟩
  cases pc with
  | readHead | writeLogFrom | writeHead | installDst =>
    obtain ⟨⟨i, u⟩, hr, h⟩ := bind_eq_ok.mp h
    cases h
    exact go (bread_kept hr)
  | readHeadRelse | writeLogRelseFrom | writeLogRelseTo | writeHeadRelse | installRelseLog | installRelseDst =>
    obtain ⟨u, hr, h⟩ := bind_eq_ok.mp h
    cases h
    exact go (brelse_kept hr)
  | writeLogCopy | installCopy =>
    obtain ⟨u, hw, h⟩ := bind_eq_ok.mp h
    cases h
    exact go (fillWrite_kept hw)
  | commit =>
    simp only [Sys.logCode] at h
    split at h <;> cases h <;> exact go refl
  | writeLog tail | installTrans tail =>
    simp only [Sys.logCode] at h
    split at h
    · obtain ⟨⟨i, u⟩, hr, h⟩ := bind_eq_ok.mp h
      cases h
      exact go (bread_kept hr)
    · cases h
      exact go refl
  | clear =>
    cases h
    exact go refl
  | writeHeadFill erase i =>
    obtain ⟨u, hw, h⟩ := bind_eq_ok.mp h
    cases h
    have k := fillWrite_kept hw
    cases erase with
    | true => exact go k
    | false =>
      refine ⟨.committed rfl ?_ k.history k.nextOp (fun q => ?_) p (.writeHeadRelse false i) (by simp [Sys.goto, setProc]),
        Or.inl k.booting⟩
      · show u.commits ++ [u.cur] = _
        rw [k.commits, k.cur]
      · -- While the commit runs no process is in an operation.
        show (Function.update u.proc p (.log (.writeHeadRelse false i)) q).isOp = false
        by_cases hqp : q = p
        · subst hqp
          simp [PState.isOp]
        · rw [Function.update_of_ne hqp, k.proc]
          exact ctl.excl p _ q hp
  | done =>
    cases h
    exact ⟨.finished ⟨rfl, rfl, rfl, rfl, fun q id hq => op_of_setProc rfl hq⟩ p hp rfl, Or.inr rfl⟩

omit [DecidableEq Pid] in
theorem Effect.of_kept (k : Kept s t) (hlh : t.lh = s.lh) (hout : t.outstanding = s.outstanding) : Effect s t :=
  .quiet ⟨k.cur, k.commits, k.history, k.nextOp, fun _ _ hq => k.proc ▸ hq⟩ hlh (fun _ _ hq => k.proc.symm ▸ hq)
    (Or.inl hout)

theorem step_effect [Fintype Pid] {a : Act Pid} (inv : s.Inv cfg d₀) (h : s.step cfg a = .ok t) : Effect s t := by
  cases a with
  | beginOp p =>
    simp only [Sys.step, Sys.beginOp] at h
    split at h
    · rename_i hg
      split at h
      · cases h
      · split at h
        · cases h
        · rename_i hspace
          cases h
          exact .began p rfl rfl rfl rfl (by simp [setProc]) (fun q hqp => Function.update_of_ne hqp _ _) hg.2 rfl rfl
            (Nat.not_lt.mp hspace)
    · cases h
  | bread p b =>
    simp only [Sys.step] at h
    split at h
    · cases h
    · split at h
      · cases h
      · obtain ⟨⟨i, u⟩, hr, h⟩ := bind_eq_ok.mp h
        cases h
        obtain ⟨-, -, same, -⟩ := inv.base.bread hr
        exact .of_kept (bread_kept hr) same.lh same.outstanding
  | modify p i x =>
    simp only [Sys.step] at h
    split at h
    · split at h
      · cases h
        exact .of_kept ⟨rfl, rfl, rfl, rfl, rfl, rfl⟩ rfl rfl
      · cases h
    · cases h
  | logWriteCheck p i =>
    simp only [Sys.step, Sys.logWriteCheck] at h
    split at h
    · split at h
      · split at h
        · cases h
        · split at h
          · cases h
          · cases h
            exact .of_kept ⟨rfl, rfl, rfl, rfl, rfl, rfl⟩ rfl rfl
      · cases h
    · cases h
  | logWriteAbsorb p i =>
    simp only [Sys.step] at h
    split at h
    · rename_i id hp
      split at h
      · cases h
        exact .logged p { op := id, blockno := (s.st.buf i).blockno, data := (s.st.buf i).data } hp rfl rfl rfl rfl rfl
          rfl rfl
      · cases h
    · cases h
  | brelse p i =>
    simp only [Sys.step] at h
    split at h
    · cases h
    · split at h
      · rename_i hi
        obtain ⟨-, -, same, -⟩ := inv.base.brelse (not_chg_of_read hi) h
        exact .of_kept (brelse_kept h) same.lh same.outstanding
      · cases h
  | endOp p =>
    simp only [Sys.step, Sys.endOp] at h
    split at h
    · rename_i id hp
      split at h
      · cases h
      · split at h
        · cases h
        · split at h
          · cases h
            exact .logging ⟨rfl, rfl, rfl, rfl, fun q id hq => op_of_setProc rfl hq⟩ p .commit
              (by simp [Sys.goto, setProc])
          · rename_i hlast
            cases h
            refine .quiet ⟨rfl, rfl, rfl, rfl, fun q id hq => op_of_setProc rfl hq⟩ rfl (fun q pc hq => ?_)
              (Or.inr (Nat.pos_of_ne_zero hlast))
            exact absurd hq ((inv.quiet_of_op (p := p) (by rw [hp]; rfl)).1 q pc)
    · cases h
  | log p =>
    simp only [Sys.step] at h
    split at h
    · rename_i pc hp
      exact (logCode_effect inv.ctl hp h).1
    · cases h
  | crash p =>
    cases h
    refine .crashed rfl rfl rfl rfl (fun q => ?_) p .readHead (by simp [Sys.crash])
    by_cases hqp : q = p
    · subst hqp
      simp [Sys.crash, PState.isOp]
    · simp [Sys.crash, hqp, PState.isOp]

end

/-! ### Commits take whole operations -/

/-- The records of operation `id` in `l`. -/
def ofOp (id : Nat) (l : List Rec) : List Rec := l.filter fun r => r.op = id

theorem ofOp_snoc_of_ne {id : Nat} {l : List Rec} {r : Rec} (h : r.op ≠ id) : ofOp id (l ++ [r]) = ofOp id l := by
  simp [ofOp, h]

def Committed (s : Sys Pid) (id : Nat) : Prop := ∃ txn ∈ s.commits, ∃ r ∈ txn, r.op = id

/-- Where the records of an operation are: all in one commit, or all among the current ones. The operations
    still going on have theirs among the current ones. -/
structure Grouped (s : Sys Pid) : Prop where
  past : ∀ r ∈ s.history, r.op < s.nextOp
  committed : ∀ id, s.Committed id → id < s.nextOp
  going : ∀ p id, s.proc p = .op id → id < s.nextOp ∧ ¬s.Committed id ∧ ofOp id s.cur = ofOp id s.history
  cur : ∀ r ∈ s.cur, ¬s.Committed r.op ∧ ofOp r.op s.cur = ofOp r.op s.history
  whole : ∀ txn ∈ s.commits, ∀ r ∈ txn, ofOp r.op txn = ofOp r.op s.history

theorem Grouped.logged {r : Rec} (g : s.Grouped) (hp : s.proc p = .op r.op) (hcur : t.cur = s.cur ++ [r])
    (hcommits : t.commits = s.commits) (hhist : t.history = s.history ++ [r]) (hnext : t.nextOp = s.nextOp)
    (hproc : t.proc = s.proc) : t.Grouped := by
  obtain ⟨hlt, hnew, heq⟩ := g.going p r.op hp
  have hcom : ∀ id, t.Committed id ↔ s.Committed id := fun id => by rw [Committed, hcommits]; rfl
  have happ : ∀ id, ofOp id s.cur = ofOp id s.history → ofOp id t.cur = ofOp id t.history := fun id h => by
    rw [hcur, hhist]
    simp only [ofOp, List.filter_append] at h ⊢
    rw [h]
  refine ⟨fun x hx => ?_, fun id hid => ?_, fun q id hq => ?_, fun x hx => ?_, fun txn htxn x hx => ?_⟩
  · rw [hhist, List.mem_append, List.mem_singleton] at hx
    rw [hnext]
    rcases hx with hx | rfl
    · exact g.past x hx
    · exact hlt
  · rw [hnext]
    exact g.committed id ((hcom id).mp hid)
  · rw [hproc] at hq
    obtain ⟨h1, h2, h3⟩ := g.going q id hq
    exact ⟨hnext ▸ h1, fun h => h2 ((hcom id).mp h), happ id h3⟩
  · rw [hcur, List.mem_append, List.mem_singleton] at hx
    rcases hx with hx | rfl
    · exact ⟨fun h => (g.cur x hx).1 ((hcom _).mp h), happ _ (g.cur x hx).2⟩
    · exact ⟨fun h => hnew ((hcom _).mp h), happ _ heq⟩
  · -- An operation that has been committed is over, so the new record is not one of its own.
    rw [hcommits] at htxn
    have hne : r.op ≠ x.op := fun h => hnew (h ▸ ⟨txn, htxn, x, hx, rfl⟩)
    rw [hhist, ofOp_snoc_of_ne hne]
    exact g.whole txn htxn x hx

theorem Grouped.same (g : s.Grouped) (recs : SameRecs s t) : t.Grouped := by
  refine ⟨?_, ?_, fun q id hq => ?_, ?_, ?_⟩
  · rw [recs.history, recs.nextOp]
    exact g.past
  · simp only [Committed, recs.commits, recs.nextOp]
    exact g.committed
  · simp only [Committed, recs.commits, recs.nextOp, recs.cur, recs.history]
    exact g.going q id (recs.op q id hq)
  · simp only [Committed, recs.commits, recs.cur, recs.history]
    exact g.cur
  · rw [recs.commits, recs.history]
    exact g.whole

theorem Grouped.cur_past (g : s.Grouped) {r : Rec} (hr : r ∈ s.cur) : r ∈ s.history := by
  have hmem : r ∈ ofOp r.op s.cur := by simpa [ofOp] using hr
  rw [(g.cur r hr).2] at hmem
  exact List.mem_of_mem_filter hmem

theorem Grouped.effect (g : s.Grouped) (e : Effect s t) : t.Grouped := by
  cases e with
  | quiet recs => exact g.same recs
  | logging recs => exact g.same recs
  | finished recs => exact g.same recs
  | began p hcur hcommits hhist hnext hp hop =>
    refine ⟨fun r hr => ?_, fun id hid => ?_, fun q id hq => ?_, ?_, ?_⟩
    · rw [hhist] at hr
      have := g.past r hr
      omega
    · simp only [Committed, hcommits] at hid
      have := g.committed id hid
      omega
    · simp only [Committed, hcommits, hnext, hcur, hhist]
      by_cases hqp : q = p
      · -- The number is new: no record has it.
        subst hqp
        rw [hp] at hq
        cases hq
        have hnone : ∀ l : List Rec, (∀ r ∈ l, r.op ≠ s.nextOp) → ofOp s.nextOp l = [] := fun l hl => by
          simpa [ofOp, List.filter_eq_nil_iff] using hl
        have hhist : ∀ r ∈ s.history, r.op ≠ s.nextOp := fun r hr => (g.past r hr).ne
        have hcur : ∀ r ∈ s.cur, r.op ≠ s.nextOp := fun r hr => hhist r (g.cur_past hr)
        exact ⟨by omega, fun h => absurd (g.committed _ h) (lt_irrefl _), (hnone _ hcur).trans (hnone _ hhist).symm⟩
      · rw [hop q hqp] at hq
        obtain ⟨h1, h2, h3⟩ := g.going q id hq
        exact ⟨by omega, h2, h3⟩
    · simp only [Committed, hcommits, hcur, hhist]
      exact g.cur
    · rw [hcommits, hhist]
      exact g.whole
  | logged p r hp hcur hcommits hhist hnext hproc => exact g.logged hp hcur hcommits hhist hnext hproc
  | committed hcur hcommits hhist hnext hop =>
    refine ⟨?_, fun id hid => ?_, fun q id hq => ?_, fun r hr => ?_, fun txn htxn r hr => ?_⟩
    · rw [hhist, hnext]
      exact g.past
    · obtain ⟨txn, htxn, r, hr, rfl⟩ := hid
      rw [hcommits, List.mem_append, List.mem_singleton] at htxn
      rw [hnext]
      rcases htxn with htxn | rfl
      · exact g.committed _ ⟨txn, htxn, r, hr, rfl⟩
      · exact g.past r (g.cur_past hr)
    · have := hop q
      rw [hq] at this
      cases this
    · rw [hcur] at hr
      cases hr
    · rw [hcommits, List.mem_append, List.mem_singleton] at htxn
      rw [hhist]
      rcases htxn with htxn | rfl
      · exact g.whole txn htxn r hr
      · exact (g.cur r hr).2
  | crashed hcur hcommits hhist hnext hop =>
    refine ⟨?_, ?_, fun q id hq => ?_, fun r hr => ?_, ?_⟩
    · rw [hhist, hnext]
      exact g.past
    · simp only [Committed, hcommits, hnext]
      exact g.committed
    · have := hop q
      rw [hq] at this
      cases this
    · rw [hcur] at hr
      cases hr
    · rw [hcommits, hhist]
      exact g.whole

/-! ### Recovery -/

section Recovery
variable [Fintype Pid] [DecidableEq Pid]

/-- The runs of the log layer from the disk `d₀`. -/
abbrev Run (cfg : LogCfg) (d₀ : Nat → Block) : Sys Pid → Prop :=
  Reachable (Sys.step cfg) (fun _ _ => True) fun s => s = Sys.start cfg d₀

theorem Run.grouped (hempty : decodeHead (d₀ cfg.start) = []) (h : Run cfg d₀ s) : s.Grouped := by
  induction h with
  | init h =>
    subst h
    refine ⟨fun r hr => (nomatch hr), ?_, fun p id hp => (nomatch hp), fun r hr => (nomatch hr), fun x hx => nomatch hx⟩
    rintro id ⟨txn, htxn, -⟩
    cases htxn
  | step a hr _ hs ih => exact ih.effect (step_effect (reachable_inv hempty hr) hs)

/-- When `recover_from_log` comes to its end, each home block has the contents that the commits whose header
    was written have left, and each of these commits has all the `log_write`s of the operations in it. -/
theorem recovery_atomic (hempty : decodeHead (d₀ cfg.start) = []) (hr : Run cfg d₀ s)
    (hs : s.step cfg (.log p) = .ok t) (hboot : s.booting = true) (hend : t.booting = false) :
    (∀ b, cfg.Home b → t.st.disk b = afterCommits d₀ t.commits b) ∧
      ∀ txn ∈ t.commits, ∀ r ∈ txn, ofOp r.op txn = ofOp r.op t.history := by
  have inv := reachable_inv hempty hr
  have grouped : t.Grouped := Run.grouped hempty (hr.step _ trivial hs)
  refine ⟨?_, grouped.whole⟩
  simp only [Sys.step] at hs
  split at hs
  · rename_i pc hp
    rcases (logCode_effect inv.ctl hp hs).2 with hsame | rfl
    · rw [hsame, hboot] at hend
      cases hend
    · obtain ⟨quiet, -⟩ := inv.log p .done hp
      obtain ⟨-, hface⟩ := inv.done_step hp hs
      rw [← hface] at quiet
      exact quiet.home
  · cases hs

/-- One process commits block 100 and the machine crashes right after the header is on disk; the recovery
    crashes too, before the header is erased. -/
def crashedTwice : List (Act Unit) :=
  [.beginOp (), .bread () 100, .modify () 0 fun _ => 7, .logWriteCheck () 0, .logWriteAbsorb () 0, .brelse () 0,
    .endOp ()] ++ List.replicate 9 (.log ()) ++ [.crash ()] ++ List.replicate 5 (.log ()) ++ [.crash ()] ++
    List.replicate 12 (.log ())

theorem recovery_atomic_crashedTwice : ∃ s t : Sys Unit, Run .mkfs (fun _ => .zero) s ∧
    s.step .mkfs (.log ()) = .ok t ∧ s.booting = true ∧ t.booting = false ∧ t.commits.length = 1 ∧
    (∀ b, LogCfg.mkfs.Home b → t.st.disk b = afterCommits (fun _ => .zero) t.commits b) ∧
      ∀ txn ∈ t.commits, ∀ r ∈ txn, ofOp r.op txn = ofOp r.op t.history := by
  obtain ⟨s, hs, hboot, t, ht, hdone, hone⟩ : ∃ s, runList (Sys.step .mkfs) (Sys.start .mkfs fun _ => .zero) crashedTwice = .ok s ∧
      s.booting = true ∧ ∃ t, s.step .mkfs (.log ()) = .ok t ∧ t.booting = false ∧ t.commits.length = 1 := by
    decide +kernel
  have hr : Run .mkfs (fun _ => .zero) s := .runList (fun _ _ => trivial) (.init rfl) hs
  exact ⟨s, t, hr, ht, hboot, hdone, hone, recovery_atomic (by decide +kernel) hr ht hboot hdone⟩

end Recovery
end Sys
end Xv6
