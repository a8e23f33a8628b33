import Xv6.Theorems.LogSpace

/-! Whether the buffer cache can run out. A block of the log stays in its buffer until it is committed, and every process may
    hold buffers besides; there are no more buffers than the log alone may need. -/

namespace Xv6
open Machine

/-- `bget` finds no buffer exactly if the block is not cached and every buffer is busy or dirty. -/
theorem Store.Ok.bget_fails_iff {st : Store} {chg : BufIdx → Prop} (ok : st.Ok chg) (b : Nat) :
    st.bget ROOTDEV b = .panic "bget: no buffers" ↔
      (∀ i, ¬st.At b i) ∧ ∀ i, (st.buf i).busy = true ∨ (st.buf i).dirty = true := by
  unfold Store.bget
  split
  · rename_i i hi
    have hat : st.At b i := Store.caches_iff.mp (List.find?_some hi)
    refine iff_of_false ?_ fun h => h.1 i hat
    split <;> simp
  · rename_i hnone
    have huncached : ∀ j, ¬st.At b j := fun j hj =>
      List.find?_eq_none.mp hnone j (ok.mem j) (Store.caches_iff.mpr hj)
    split
    · rename_i i hi
      have hfree := List.find?_some hi
      simp only [Bool.and_eq_true, Bool.not_eq_true'] at hfree
      refine iff_of_false (fun h => nomatch h) fun h => ?_
      rcases h.2 i with hbusy | hdirty
      · rw [hfree.1] at hbusy
        cases hbusy
      · rw [hfree.2] at hdirty
        cases hdirty
    · rename_i hnone
      refine iff_of_true rfl ⟨huncached, fun i => ?_⟩
      have := List.find?_eq_none.mp hnone i (List.mem_reverse.mpr (ok.mem i))
      simp only [Bool.and_eq_true, Bool.not_eq_true', not_and, Bool.not_eq_false] at this
      cases hbusy : (st.buf i).busy
      · exact Or.inr (this hbusy)
      · exact Or.inl rfl

namespace Sys
variable {Pid : Type} {cfg : LogCfg} {d₀ : Nat → Block} {s t : Sys Pid} {p : Pid} {i : BufIdx}

def held (s : Sys Pid) : Finset BufIdx := Finset.univ.filter fun i => (s.hold i).isSome = true

/-- The buffers that are kept for the log. -/
def pinned (s : Sys Pid) : Finset BufIdx := Finset.univ.filter fun i => (s.st.buf i).dirty = true

/-! ### Pinned buffers -/

section Pinned
variable [Fintype Pid]

theorem Inv.mem_lh_of_dirty (inv : s.Inv cfg d₀) (hd : (s.st.buf i).dirty = true) : (s.st.buf i).blockno ∈ s.lh := by
  have hvalid := inv.base.store.dirty i hd
  have hpin : s.face.pinned (s.st.buf i).blockno := ⟨i, ⟨(inv.base.store.root i hvalid).1, rfl⟩, hd⟩
  rcases inv.phase with quiet | ⟨k, installing⟩ | cleared | booted
  · exact (quiet.pinned _).mp hpin
  · exact List.mem_of_mem_drop (installing.pinned _ hpin).1
  · exact absurd hpin (cleared.pinned _)
  · exact absurd hpin (booted.pinned _)

theorem Inv.card_pinned_le (inv : s.Inv cfg d₀) : s.pinned.card ≤ s.lh.length := by
  have hroot : ∀ j ∈ s.pinned, s.st.At (s.st.buf j).blockno j := fun j hj =>
    ⟨(inv.base.store.root j (inv.base.store.dirty j (Finset.mem_filter.mp hj).2)).1, rfl⟩
  refine (Finset.card_le_card_of_injOn (fun j => (s.st.buf j).blockno) (fun j hj => ?_) fun j hj k hk heq => ?_).trans
    (List.toFinset_card_le s.lh)
  · exact List.mem_toFinset.mpr (inv.mem_lh_of_dirty (Finset.mem_filter.mp hj).2)
  · exact inv.base.store.uniq _ j k (hroot j hj) ⟨(hroot k hk).1, Eq.symm heq⟩

end Pinned

/-! ### Steps -/

/-- Code that stops for want of a buffer has called `bget` in the state `s`. -/
def NoBuffers (s : Sys Pid) (o : Option String) : Prop :=
  o = some "bget: no buffers" → ∃ b, s.st.bget ROOTDEV b = .panic "bget: no buffers"

theorem iderw_buffers (s : Sys Pid) (st : Store) (i : BufIdx) : (st.iderw i).Spec (fun _ => True) s.NoBuffers := by
  unfold Store.iderw
  dsimp only
  repeat' split
  all_goals first | trivial | exact fun h => nomatch h

theorem bread_buffers (s : Sys Pid) (p : Pid) (b : Nat) : (s.bread p b).Spec (fun _ => True) s.NoBuffers := by
  have hget : (s.st.bget ROOTDEV b).Spec (fun _ => True) s.NoBuffers := by
    cases hget : s.st.bget ROOTDEV b with
    | ok r => trivial
    | sleep => exact fun h => nomatch h
    | panic msg => exact fun h => ⟨b, by rw [hget, Option.some.inj h]⟩
  have hread : (s.st.bread ROOTDEV b).Spec (fun _ => True) s.NoBuffers := by
    refine hget.bind fun r _ => ?_
    dsimp only
    split
    · trivial
    · exact (iderw_buffers s _ _).bind fun _ _ => trivial
  exact hread.bind fun _ _ => trivial

theorem brelse_buffers (s : Sys Pid) (i : BufIdx) : (s.brelse i).Spec (fun _ => True) s.NoBuffers := by
  unfold Sys.brelse Store.brelse
  split
  · exact fun h => nomatch h
  · trivial

theorem fillWrite_buffers (s : Sys Pid) (i : BufIdx) (x : Block) : (s.fillWrite i x).Spec (fun _ => True) s.NoBuffers := by
  unfold Sys.fillWrite Store.bwrite
  split
  · exact fun h => nomatch h
  · exact (iderw_buffers s _ _).bind fun _ _ => trivial

variable [DecidableEq Pid]

theorem logCode_buffers (s : Sys Pid) (p : Pid) (pc : LogPc) : (s.logCode cfg p pc).Spec (fun _ => True) s.NoBuffers := by
  have hread : ∀ {b} {f : BufIdx × Sys Pid → Sys Pid}, (s.bread p b >>= fun r => pure (f r)).Spec (fun _ => True) s.NoBuffers :=
    (bread_buffers s p _).bind fun _ _ => trivial
  have hrelse : ∀ {i} {f : Sys Pid → Sys Pid}, (s.brelse i >>= fun r => pure (f r)).Spec (fun _ => True) s.NoBuffers :=
    (brelse_buffers s _).bind fun _ _ => trivial
  have hwrite : ∀ {i x} {f : Sys Pid → Sys Pid}, (s.fillWrite i x >>= fun r => pure (f r)).Spec (fun _ => True) s.NoBuffers :=
    (fillWrite_buffers s _ _).bind fun _ _ => trivial
  cases pc with
  | readHead | writeLogFrom _ _ | writeHead _ | installDst _ _ => exact hread
  | readHeadRelse _ | writeLogRelseFrom _ _ _ | writeLogRelseTo _ _ | writeHeadRelse _ _ | installRelseLog _ _ _
  | installRelseDst _ _ => exact hrelse
  | writeLogCopy _ _ _ | writeHeadFill _ _ | installCopy _ _ _ => exact hwrite
  | writeLog _ | installTrans _ =>
    rw [Sys.logCode]
    split
    · exact hread
    · trivial
  | commit =>
    rw [Sys.logCode]
    split <;> trivial
  | clear | done => trivial

theorem step_buffers (s : Sys Pid) (a : Act Pid) : (s.step cfg a).Spec (fun _ => True) s.NoBuffers := by
  have hsleep : s.NoBuffers none := fun h => nomatch h
  have hmsg : ∀ {msg : String}, msg ≠ "bget: no buffers" → s.NoBuffers (some msg) := fun hne h => absurd (Option.some.inj h) hne
  cases a with
  | beginOp p =>
    rw [Sys.step, Sys.beginOp]
    repeat' split
    all_goals first | exact hsleep | trivial
  | bread p b =>
    rw [Sys.step]
    split
    · exact hsleep
    · split
      · exact hsleep
      · exact (bread_buffers s p b).bind fun _ _ => trivial
  | modify p i data =>
    rw [Sys.step]
    repeat' split
    all_goals first | exact hsleep | trivial
  | logWriteCheck p i =>
    rw [Sys.step, Sys.logWriteCheck]
    repeat' split
    all_goals first | exact hsleep | exact hmsg (by decide) | trivial
  | logWriteAbsorb p i =>
    rw [Sys.step]
    repeat' split
    all_goals first | exact hsleep | trivial
  | brelse p i =>
    rw [Sys.step]
    split
    · exact hsleep
    · split
      · exact brelse_buffers s i
      · exact hsleep
  | endOp p =>
    rw [Sys.step, Sys.endOp]
    repeat' split
    all_goals first | exact hsleep | exact hmsg (by decide) | trivial
  | log p =>
    rw [Sys.step]
    split
    · exact logCode_buffers s p _
    · exact hsleep
  | crash p => trivial

variable [Fintype Pid]

/-- `bget` finds every block or a buffer for it exactly as long as some buffer is neither held nor pinned. It does so in every
    step if the buffers that are held and the blocks that are logged since the last commit are less than `NBUF`. -/
theorem buffers_iff (hempty : decodeHead (d₀ cfg.start) = []) (hr : Run cfg d₀ s) :
    ((∀ b, s.st.bget ROOTDEV b ≠ .panic "bget: no buffers") ↔ (s.held ∪ s.pinned).card < NBUF) ∧
      (s.held.card + s.lh.length < NBUF → ∀ a, s.step cfg a ≠ .panic "bget: no buffers") := by
  have inv := reachable_inv hempty hr
  have hmem : ∀ i, i ∈ s.held ∪ s.pinned ↔ (s.st.buf i).busy = true ∨ (s.st.buf i).dirty = true := fun i => by
    simp [held, pinned, inv.base.busy i]
  have hiff : (∀ b, s.st.bget ROOTDEV b ≠ .panic "bget: no buffers") ↔ (s.held ∪ s.pinned).card < NBUF := by
    have hcard : (s.held ∪ s.pinned).card < NBUF ↔ s.held ∪ s.pinned ≠ Finset.univ := by
      have hle := Finset.card_le_univ (s.held ∪ s.pinned)
      rw [Ne, ← Finset.card_eq_iff_eq_univ, Fintype.card_fin] at *
      omega
    rw [hcard]
    constructor
    · intro hfind hall
      -- Some block is not cached: there are more blocks than buffers.
      obtain ⟨b, hb⟩ := Infinite.exists_notMem_finset (Finset.univ.image fun i => (s.st.buf i).blockno)
      refine hfind b ((inv.base.store.bget_fails_iff b).mpr ⟨fun i hi => hb ?_, fun i => (hmem i).mp (hall ▸ Finset.mem_univ i)⟩)
      exact Finset.mem_image.mpr ⟨i, Finset.mem_univ i, hi.2⟩
    · intro hne b hfail
      exact hne (Finset.eq_univ_iff_forall.mpr fun i => (hmem i).mpr (((inv.base.store.bget_fails_iff b).mp hfail).2 i))
  refine ⟨hiff, fun hroom a hstop => ?_⟩
  have hspec : (s.step cfg a).Spec (fun _ => True) s.NoBuffers := step_buffers s a
  rw [hstop] at hspec
  obtain ⟨b, hb⟩ := hspec rfl
  refine hiff.mpr ?_ b hb
  calc (s.held ∪ s.pinned).card ≤ s.held.card + s.pinned.card := Finset.card_union_le _ _
    _ ≤ s.held.card + s.lh.length := Nat.add_le_add_left inv.card_pinned_le _
    _ < NBUF := hroom

omit [DecidableEq Pid] [Fintype Pid]

theorem buffers_iff_first_read : ∃ s : Sys Unit, Run .mkfs (fun _ => .zero) s ∧ s.held.card = 1 ∧
    ∀ a, s.step .mkfs a ≠ .panic "bget: no buffers" := by
  obtain ⟨s, hs, h⟩ : ∃ s, runList (Sys.step .mkfs) (Sys.start .mkfs fun _ => .zero) [.bread () 100] = .ok s ∧ s.held.card = 1 ∧ s.lh = [] := by
    decide +kernel
  have hr : Run .mkfs (fun _ => .zero) s := .runList (fun _ _ => trivial) (.init rfl) hs
  exact ⟨s, hr, h.1, (buffers_iff (by decide +kernel) hr).2 (by rw [h.1, h.2]; decide)⟩

/-- Thirty processes have read a block each, outside of any operation, when another one wants to read. -/
theorem thirty_readers : ∃ s : Sys (Fin NPROC), Run .mkfs (fun _ => .zero) s ∧ (∀ p, s.proc p = .idle) ∧
    (∀ p, (s.held.filter fun i => (s.hold i).map Prod.fst = some p).card ≤ 1) ∧
    s.step .mkfs (.bread 30 130) = .panic "bget: no buffers" := by
  obtain ⟨s, hs, hidle, hone, hboot, hbuf⟩ : ∃ s, runList (Sys.step .mkfs) (Sys.start .mkfs fun _ => .zero)
      ((List.range 30).map fun k => .bread (Fin.ofNat NPROC k) (100 + k)) = .ok s ∧ (∀ p, s.proc p = .idle) ∧
        (∀ p, (s.held.filter fun i => (s.hold i).map Prod.fst = some p).card ≤ 1) ∧ s.booting = false ∧
        ∀ i, (s.st.buf i).blockno ≠ 130 ∧ (s.st.buf i).busy = true := by
    decide +kernel
  have hr : Run .mkfs (fun _ => .zero) s := .runList (fun _ _ => trivial) (.init rfl) hs
  have inv := reachable_inv (by decide +kernel) hr
  have hget : s.st.bget ROOTDEV 130 = .panic "bget: no buffers" :=
    (inv.base.store.bget_fails_iff 130).mpr ⟨fun i hi => (hbuf i).1 hi.2, fun i => Or.inl (hbuf i).2⟩
  refine ⟨s, hr, hidle, hone, ?_⟩
  simp [Sys.step, hidle, hboot, Sys.bread, Store.bread, hget]

end Sys
end Xv6
