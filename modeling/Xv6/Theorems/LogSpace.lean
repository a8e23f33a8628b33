import Mathlib.Algebra.BigOperators.Group.Finset.Basic
import Mathlib.Algebra.Order.BigOperators.Group.Finset
import Xv6.Theorems.CrashAtomicity

/-! Whether the log always has room. `begin_op` reserves `MAXOPBLOCKS` blocks of `LOGSIZE` for an operation,
    but `log_write` stops the machine one block earlier, at `log.size - 1`: of the `LOGSIZE` blocks that
    `mkfs` gives the log one holds the header. -/

namespace Xv6
open Machine
namespace Sys
variable {Pid : Type} {cfg : LogCfg} {d₀ : Nat → Block} {s t : Sys Pid} {p : Pid}

/-- The blocks of some records. -/
def blocksOf (l : List Rec) : Finset Nat := (l.map Rec.blockno).toFinset

theorem mem_blocksOf {l : List Rec} {b : Nat} : b ∈ blocksOf l ↔ ∃ r ∈ l, r.blockno = b := by
  simp [blocksOf]

theorem blocksOf_snoc (l : List Rec) (r : Rec) : blocksOf (l ++ [r]) = insert r.blockno (blocksOf l) := by
  ext b
  simp only [mem_blocksOf, List.mem_append, List.mem_singleton, Finset.mem_insert]
  constructor
  · rintro ⟨x, hx | rfl, rfl⟩
    · exact Or.inr ⟨x, hx, rfl⟩
    · exact Or.inl rfl
  · rintro (rfl | ⟨x, hx, rfl⟩)
    · exact ⟨r, Or.inr rfl, rfl⟩
    · exact ⟨x, Or.inl hx, rfl⟩

/-- The number of distinct blocks that operation `id` has written to the log. -/
def used (s : Sys Pid) (id : Nat) : Nat := (blocksOf (ofOp id s.history)).card

theorem length_lh (quiet : s.face.Quiet cfg d₀) : s.lh.length = (blocksOf s.cur).card := by
  have hset : blocksOf s.cur = s.lh.toFinset := by
    ext b
    rw [mem_blocksOf, List.mem_toFinset]
    exact (quiet.cur b).symm
  rw [hset]
  exact (List.toFinset_card_of_nodup quiet.nodup).symm

/-- What an operation that logs less than `MAXOPBLOCKS` blocks may still log. -/
def slack (s : Sys Pid) (p : Pid) : Nat :=
  match s.proc p with
  | .op id => MAXOPBLOCKS - 1 - s.used id
  | _ => 0

theorem slack_of_not_op (h : (s.proc p).isOp = false) : s.slack p = 0 := by
  cases hp : s.proc p with
  | op id =>
    rw [hp] at h
    cases h
  | idle => simp [slack, hp]
  | log pc => simp [slack, hp]

theorem slack_le (s : Sys Pid) (p : Pid) : s.slack p ≤ if (s.proc p).isOp then MAXOPBLOCKS - 1 else 0 := by
  cases hp : s.proc p with
  | op id => simp [slack, hp, PState.isOp]
  | idle => simp [slack, hp]
  | log pc => simp [slack, hp]

theorem slack_same (recs : SameRecs s t) (q : Pid) : t.slack q ≤ s.slack q := by
  cases hq : t.proc q with
  | op id =>
    have hs := recs.op q id hq
    simp [slack, hq, hs, used, recs.history]
  | idle => simp [slack, hq]
  | log pc => simp [slack, hq]

/-- Every operation has logged less than `MAXOPBLOCKS` blocks. -/
def Small (s : Sys Pid) : Prop := ∀ id, s.used id ≤ MAXOPBLOCKS - 1

/-- Unless log code runs, the blocks in the header and those still to come leave one block of the log free. -/
structure Room [Fintype Pid] (s : Sys Pid) : Prop where
  sum : s.lh.length + ∑ q, s.slack q ≤ LOGSIZE - 2
  empty : s.outstanding = 0 → s.lh = []

section
variable [Fintype Pid]

theorem Room.quiet (room : s.Room) (recs : SameRecs s t) (hlh : t.lh = s.lh)
    (hout : t.outstanding = s.outstanding ∨ 0 < t.outstanding) : t.Room where
  sum := by
    have hle : ∑ q, t.slack q ≤ ∑ q, s.slack q := Finset.sum_le_sum fun q _ => slack_same recs q
    have := room.sum
    rw [hlh]
    omega
  empty := fun h => by
    rw [hlh]
    rcases hout with hout | hout
    · exact room.empty (hout ▸ h)
    · omega

theorem room_of_no_op (hlh : s.lh = []) (hop : ∀ q, (s.proc q).isOp = false) : s.Room where
  sum := by
    rw [hlh, Finset.sum_eq_zero fun q _ => slack_of_not_op (hop q)]
    exact Nat.zero_le _
  empty := fun _ => hlh

/-- `begin_op` lets in at most three operations, and a second or third one only with a block to spare. -/
theorem room_of_began (ctl : t.Ctl) (room : s.Room) (hlh : t.lh = s.lh) (hout : t.outstanding = s.outstanding + 1)
    (hspace : s.lh.length + (s.outstanding + 1) * MAXOPBLOCKS ≤ LOGSIZE) : t.Room where
  sum := by
    have hle : ∑ q, t.slack q ≤ t.outstanding * (MAXOPBLOCKS - 1) := by
      calc ∑ q, t.slack q ≤ ∑ q, if (t.proc q).isOp then MAXOPBLOCKS - 1 else 0 := Finset.sum_le_sum fun q _ => slack_le t q
        _ = t.outstanding * (MAXOPBLOCKS - 1) := by
          rw [← Finset.sum_filter, Finset.sum_const, smul_eq_mul, ctl.count]
    rw [hout] at hle
    rw [hlh]
    simp only [LOGSIZE, MAXOPBLOCKS] at hspace hle ⊢
    by_cases h0 : s.outstanding = 0
    · rw [room.empty h0, h0] at *
      simp at hle ⊢
      omega
    · omega
  empty := fun h => by omega

/-- A block that is new for the header is new for its operation, which may then log one block less. -/
theorem room_of_logged {r : Rec} (grouped : s.Grouped) (quiet : s.face.Quiet cfg d₀) (room : s.Room) (small : t.Small)
    (hp : s.proc p = .op r.op) (hhist : t.history = s.history ++ [r]) (hproc : t.proc = s.proc)
    (hlh : t.lh = if r.blockno ∈ s.lh then s.lh else s.lh ++ [r.blockno]) (hout : t.outstanding = s.outstanding)
    (hpos : 0 < s.outstanding) : t.Room where
  sum := by
    have hused : ∀ id, s.used id ≤ t.used id := fun id => by
      refine Finset.card_le_card fun b hb => ?_
      rw [mem_blocksOf] at hb ⊢
      obtain ⟨x, hx, rfl⟩ := hb
      refine ⟨x, ?_, rfl⟩
      simp only [ofOp, hhist, List.filter_append] at hx ⊢
      exact List.mem_append_left _ hx
    have hslack : ∀ q, t.slack q ≤ s.slack q := fun q => by
      simp only [slack, hproc]
      split
      · rename_i id _
        have := hused id
        omega
      · exact Nat.le_refl _
    have hsum := room.sum
    by_cases hmem : r.blockno ∈ s.lh
    · rw [if_pos hmem] at hlh
      have hle : ∑ q, t.slack q ≤ ∑ q, s.slack q := Finset.sum_le_sum fun q _ => hslack q
      rw [hlh]
      omega
    · rw [if_neg hmem] at hlh
      have hnew : r.blockno ∉ blocksOf (ofOp r.op s.history) := fun h => by
        obtain ⟨x, hx, hxb⟩ := mem_blocksOf.mp h
        rw [← (grouped.going p r.op hp).2.2] at hx
        exact hmem ((quiet.cur _).mpr ⟨x, List.mem_of_mem_filter hx, hxb⟩)
      have hone : t.used r.op = s.used r.op + 1 := by
        have : ofOp r.op t.history = ofOp r.op s.history ++ [r] := by simp [ofOp, hhist]
        rw [used, this, blocksOf_snoc, Finset.card_insert_of_notMem hnew]
        rfl
      have hlt : t.slack p < s.slack p := by
        have := small r.op
        simp only [slack, hproc, hp]
        omega
      have hle : ∑ q, t.slack q < ∑ q, s.slack q :=
        Finset.sum_lt_sum (fun q _ => hslack q) ⟨p, Finset.mem_univ p, hlt⟩
      rw [hlh, List.length_append, List.length_singleton]
      omega
  empty := fun h => by omega

variable [DecidableEq Pid]

theorem Run.room (hempty : decodeHead (d₀ cfg.start) = []) (h : Run cfg d₀ s) (small : s.Small)
    (hno : ∀ q pc, s.proc q ≠ .log pc) : s.Room := by
  induction h with
  | init h =>
    subst h
    exact room_of_no_op rfl fun _ => rfl
  | @step s t a hr _ hs ih =>
    have inv := reachable_inv hempty hr
    have inv' := inv.step_ok hs
    -- The history only grows, so the operations were small before the step too.
    have back : ∀ {l}, t.history = s.history ++ l → s.Small := fun hh id => by
      refine (Finset.card_le_card fun b hb => ?_).trans (small id)
      obtain ⟨x, hx, rfl⟩ := mem_blocksOf.mp hb
      refine mem_blocksOf.mpr ⟨x, ?_, rfl⟩
      simp only [ofOp, hh, List.filter_append] at hx ⊢
      exact List.mem_append_left _ hx
    cases step_effect inv hs with
    | quiet recs hlh hlog hout =>
      have room := ih (back (l := []) (by simp [recs.history])) fun q pc hq => hno q pc (hlog q pc hq)
      exact room.quiet recs hlh hout
    | logging recs p pc hp => exact absurd hp (hno p pc)
    | finished recs p hp hlh =>
      obtain ⟨-, -, hnil⟩ := inv.log p _ hp
      refine room_of_no_op (hlh.trans hnil) fun q => ?_
      cases hq : t.proc q with
      | op id =>
        have := inv.ctl.excl p _ q hp
        rw [recs.op q id hq] at this
        cases this
      | idle => rfl
      | log pc => rfl
    | began p hcur hcommits hhist hnext hp hop hidle hlh hout hspace =>
      refine room_of_began inv'.ctl (ih (back (l := []) (by simp [hhist])) fun q pc hq => ?_) hlh hout hspace
      by_cases hqp : q = p
      · subst hqp
        rw [hidle] at hq
        cases hq
      · exact hno q pc (hop q hqp ▸ hq)
    | logged p r hp hcur hcommits hhist hnext hproc hlh hout =>
      have hisOp : (s.proc p).isOp = true := by
        rw [hp]
        rfl
      obtain ⟨hno', quiet⟩ := inv.quiet_of_op hisOp
      have hpos : 0 < s.outstanding := by
        rw [inv.ctl.count]
        exact Finset.card_pos.mpr ⟨p, by simpa using hisOp⟩
      exact room_of_logged (Run.grouped hempty hr) quiet (ih (back hhist) hno') small hp hhist hproc hlh hout hpos
    | committed _ _ _ _ _ p pc hp => exact absurd hp (hno p pc)
    | crashed _ _ _ _ _ p pc hp => exact absurd hp (hno p pc)

/-- Process `p`, in an operation, calls `log_write` on a buffer of a home block that it holds. -/
structure CallsLogWrite (cfg : LogCfg) (s : Sys Pid) (p : Pid) (i : BufIdx) : Prop where
  op : (s.proc p).isOp = true
  held : s.hold i = some (p, .read) ∨ s.hold i = some (p, .changed)
  home : cfg.Home (s.st.buf i).blockno

omit [Fintype Pid] in
theorem CallsLogWrite.step_eq {i : BufIdx} (h : s.CallsLogWrite cfg p i) :
    s.step cfg (.logWriteCheck p i) = s.logWriteCheck cfg p i := by
  have hop := h.op
  cases hp : s.proc p with
  | op id => simp only [Sys.step, hp, if_pos (And.intro h.held h.home)]
  | idle =>
    rw [hp] at hop
    cases hop
  | log pc =>
    rw [hp] at hop
    cases hop

/-- On a log of the size that `mkfs` gives it, `end_op` never finds a commit going on, and `log_write` finds
    the log too small exactly if `LOGSIZE - 1` distinct blocks have been logged since the last commit; that
    does not happen as long as every operation logs less than `MAXOPBLOCKS` distinct blocks. -/
theorem log_space (hempty : decodeHead (d₀ cfg.start) = []) (hsize : cfg.size = LOGSIZE) (hr : Run cfg d₀ s) :
    (∀ p, s.step cfg (.endOp p) ≠ .panic "log.committing") ∧
      ∀ p i, s.CallsLogWrite cfg p i →
        (s.step cfg (.logWriteCheck p i) ≠ .panic "too big a transaction" ↔ (blocksOf s.cur).card < LOGSIZE - 1) ∧
        (s.Small → s.step cfg (.logWriteCheck p i) ≠ .panic "too big a transaction") := by
  have inv := reachable_inv hempty hr
  refine ⟨fun p h => ?_, fun p i call => ?_⟩
  · simp only [Sys.step, Sys.endOp] at h
    split at h
    · rename_i id hp
      split at h
      · cases h
      · split at h
        · -- A commit would be running, and then no process is in an operation.
          rename_i hcom
          obtain ⟨q, pc, hq⟩ := inv.ctl.logging.mpr (Or.inl hcom)
          exact (inv.quiet_of_op (p := p) (by rw [hp]; rfl)).1 q pc hq
        · split at h <;> cases h
    · cases h
  · obtain ⟨hno, quiet⟩ := inv.quiet_of_op call.op
    rw [call.step_eq]
    have hiff : s.logWriteCheck cfg p i ≠ .panic "too big a transaction" ↔ s.lh.length < LOGSIZE - 1 := by
      simp only [Sys.logWriteCheck, hsize]
      split
      · rename_i hfull
        refine iff_of_false (fun h => h rfl) ?_
        simp only [LOGSIZE, MAXOPBLOCKS] at hfull ⊢
        omega
      · rename_i hfull
        refine iff_of_true ?_ ?_
        · split <;> simp
        · simp only [LOGSIZE, MAXOPBLOCKS] at hfull ⊢
          omega
    refine ⟨length_lh quiet ▸ hiff, fun small => hiff.mpr ?_⟩
    have := (Run.room hempty hr small hno).sum
    simp only [LOGSIZE, MAXOPBLOCKS] at this ⊢
    omega

theorem log_space_first_write : ∃ s : Sys Unit, Run .mkfs (fun _ => .zero) s ∧ s.CallsLogWrite .mkfs () 0 ∧ s.Small ∧
    s.step .mkfs (.logWriteCheck () 0) ≠ .panic "too big a transaction" := by
  obtain ⟨s, hs, hop, hhold, hblock, hhist⟩ : ∃ s, runList (Sys.step .mkfs) (Sys.start .mkfs fun _ => .zero) [.beginOp (), .bread () 100] = .ok s ∧
      (s.proc ()).isOp = true ∧ s.hold 0 = some ((), .read) ∧ (s.st.buf 0).blockno = 100 ∧ s.history.length = 0 := by
    decide +kernel
  rw [List.length_eq_zero_iff] at hhist
  have call : s.CallsLogWrite .mkfs () 0 := ⟨hop, Or.inl hhold, by rw [hblock]; decide⟩
  have small : s.Small := fun id => by simp [used, ofOp, blocksOf, hhist]
  have hr : Run .mkfs (fun _ => .zero) s := .runList (fun _ _ => trivial) (.init rfl) hs
  exact ⟨s, hr, call, small, ((log_space (by decide +kernel) rfl hr).2 () 0 call).2 small⟩

/-! ### Three full operations -/

/-- Three processes begin an operation, and the first 29 of 30 blocks are logged, ten for each operation. -/
def threeFullOps : List (Act (Fin 3)) :=
  [.beginOp 0, .beginOp 1, .beginOp 2] ++
    (List.range 29).flatMap (fun k =>
      let p : Fin 3 := Fin.ofNat 3 (k / 10)
      let i : BufIdx := Fin.ofNat NBUF k
      [.bread p (100 + k), .logWriteCheck p i, .logWriteAbsorb p i, .brelse p i]) ++
    [.bread 2 129]

theorem card_blocksOf_le {l : List Rec} {id : Nat} (hl : l.map (fun r => (r.op, r.blockno)) =
    (List.range 30).map fun k => (k / 10, 100 + k)) : (blocksOf (ofOp id l)).card ≤ MAXOPBLOCKS := by
  have hsub : blocksOf (ofOp id l) ⊆ (Finset.range 10).image fun j => 100 + 10 * id + j := by
    intro b hb
    obtain ⟨r, hr, rfl⟩ := mem_blocksOf.mp hb
    have hmem : (r.op, r.blockno) ∈ l.map fun r => (r.op, r.blockno) := List.mem_map_of_mem (List.mem_of_mem_filter hr)
    have hop : r.op = id := by simpa using (List.mem_filter.mp hr).2
    rw [hl, List.mem_map] at hmem
    obtain ⟨k, -, hk⟩ := hmem
    simp only [Prod.mk.injEq] at hk
    exact Finset.mem_image.mpr ⟨k % 10, Finset.mem_range.mpr (Nat.mod_lt _ (by decide)), by omega⟩
  exact (Finset.card_le_card hsub).trans (Finset.card_image_le.trans (by simp))

theorem threeFullOps_panics : ∃ s : Sys (Fin 3), Run .mkfs (fun _ => .zero) s ∧
    LogCfg.mkfs.size = LOGSIZE ∧ s.CallsLogWrite .mkfs 2 29 ∧ s.proc 2 = .op 2 ∧
    (∀ id, (blocksOf (ofOp id (s.history ++ [⟨2, (s.st.buf 29).blockno, (s.st.buf 29).data⟩]))).card ≤ MAXOPBLOCKS) ∧
    s.step .mkfs (.logWriteCheck 2 29) = .panic "too big a transaction" := by
  obtain ⟨s, hs, hop, hhold, hblock, hhist, hfull⟩ : ∃ s, runList (Sys.step .mkfs) (Sys.start .mkfs fun _ => .zero) threeFullOps = .ok s ∧
      s.proc 2 = .op 2 ∧ s.hold 29 = some (2, .read) ∧ (s.st.buf 29).blockno = 129 ∧
      s.history.map (fun r => (r.op, r.blockno)) = (List.range 29).map (fun k => (k / 10, 100 + k)) ∧ LOGSIZE - 1 ≤ s.lh.length := by
    decide +kernel
  have call : s.CallsLogWrite .mkfs 2 29 := ⟨by rw [hop]; rfl, Or.inl hhold, by rw [hblock]; decide⟩
  refine ⟨s, .runList (fun _ _ => trivial) (.init rfl) hs, rfl, call, hop, fun id => card_blocksOf_le ?_, ?_⟩
  · rw [List.map_append, hhist, hblock]
    rfl
  · rw [call.step_eq]
    exact if_pos (Or.inr hfull)

end
end Sys
end Xv6
