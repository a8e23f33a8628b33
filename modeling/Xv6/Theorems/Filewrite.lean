import Xv6.Calls
import Xv6.Theorems.ExecRuns
import Xv6.Theorems.FsLogs

/-! The transactions of `filewrite`: how many blocks one of them gives to the log. -/

namespace Xv6
open Ownership
open Outcome (bind_eq_ok)
open Machine

namespace Calls
open Prog (Made Trace Discipline)

/-! ### The shape of a transaction -/

inductive Phase where
  | outside
  /-- In a transaction, before `writei`. -/
  | begun
  /-- In a transaction, after `writei`. -/
  | written
  deriving DecidableEq

def quiet : Op → Bool
  | .ilock _ | .iunlock _ | .inode _ | .off _ | .setOff _ _ | .pipeIo _ _ _ _ => true
  | _ => false

/-- In a transaction there is one `writei`. -/
def transactions : Discipline Op Res Phase where
  need
    | .beginOp, r => r = .outside
    | .endOp, r => r ≠ .outside
    | .writei _ _ _ _, r => r = .begun
    | o, _ => quiet o = true
  gives _ _ _ := True
  after
    | .beginOp, _, _ => .begun
    | .endOp, _, _ => .outside
    | .writei _ _ _ _, _, _ => .written
    | _, _, r => r

theorem writei_transactions (devsw : DevSw) (i : InodeIdx) (src : Nat → UInt8) (off n : UInt32) :
    (writei devsw i src off n).Keeps transactions .begun fun _ r => r ≠ .outside := by
  refine ⟨rfl, fun ip _ => ?_⟩
  simp only [Prog.bind]
  split
  · split
    · exact fun h => nomatch h
    · split
      · exact fun h => nomatch h
      · exact ⟨rfl, fun _ _ => ⟨rfl, fun _ _ h => nomatch h⟩⟩
  · exact ⟨rfl, fun _ _ h => nomatch h⟩

/-- What every transaction keeps, `filewrite` keeps. -/
theorem filewriteFrom_keeps {O : Type} {R : O → Type} {ρ : Type} {D : Discipline O R ρ} {I : ρ → Prop} {part : Int → Int → Prog O R Int}
    {n : Int} (h : ∀ i n1 r, 0 ≤ i → 0 ≤ n1 → n1 ≤ n - i → I r → (part i n1).Keeps D r fun _ r => I r) : ∀ (left : Nat) {i : Int} {r : ρ},
    0 ≤ i → I r → (filewriteFrom part n left i).Keeps D r fun _ r => I r
  | 0, i, r, _, hr => hr
  | left + 1, i, r, hi, hr => by
    rw [filewriteFrom]
    split
    case isFalse => exact hr
    case isTrue hlt =>
    obtain ⟨n1, hn1⟩ : ∃ n1, n1 = if writeMax < n - i then writeMax else n - i := ⟨_, rfl⟩
    have hpart : 0 ≤ n1 ∧ n1 ≤ n - i := by
      have : (0 : Int) ≤ writeMax := by decide
      rw [hn1]
      split <;> omega
    rw [← hn1]
    refine (h i n1 r hi hpart.1 hpart.2 hr).bind fun m r' hr' => ?_
    split
    · exact hr'
    · split
      · trivial
      · exact filewriteFrom_keeps h left (by omega) hr'

theorem filewritePart_transactions {devsw : DevSw} {f : Nat} {ip : InodeIdx} {addr : Nat → UInt8} (i n1 : Int) :
    (filewritePart devsw f ip addr i n1).Keeps transactions .outside fun _ r => r = .outside := by
  refine ⟨rfl, fun _ _ => ⟨rfl, fun _ _ => ⟨rfl, fun off _ => ?_⟩⟩⟩
  refine (writei_transactions devsw ip _ off (uint n1)).bind fun r ph hph => ?_
  split
  · exact ⟨rfl, fun _ _ => ⟨rfl, fun _ _ => ⟨rfl, fun _ _ => ⟨hph, fun _ _ => rfl⟩⟩⟩⟩
  · exact ⟨rfl, fun _ _ => ⟨hph, fun _ _ => rfl⟩⟩

theorem filewrite_transactions (devsw : DevSw) (f : Nat) (ff : File) (addr : Nat → UInt8) (n : Int) (io : PipeIo) :
    (filewrite devsw f ff addr n io).Keeps transactions .outside fun _ r => r = .outside := by
  unfold filewrite
  split
  · rfl
  · split
    · exact ⟨rfl, fun _ _ => rfl⟩
    · refine filewriteFrom_keeps (I := (· = Phase.outside)) (fun i n1 r _ _ _ hr => ?_) _ (le_refl 0) rfl
      subst hr
      exact filewritePart_transactions i n1
    · trivial

theorem need_inside {o : Op} {r : Phase} (h : transactions.need o r) (hr : r ≠ .outside) (ho : o ≠ .endOp) :
    quiet o = true ∧ (∀ x, transactions.after o x r = r) ∨
      r = .begun ∧ (∃ i src off n, o = .writei i src off n) ∧ ∀ x, transactions.after o x r = .written := by
  cases o with
  | beginOp => exact absurd h hr
  | endOp => exact absurd rfl ho
  | writei i src off n => exact .inr ⟨h, ⟨i, src, off, n, rfl⟩, fun _ => rfl⟩
  | _ => exact .inl ⟨h, fun _ => rfl⟩

variable {b : Build} {rest : List (Made Op Os)} {post : Int → Phase → Prop}

theorem quiet_of_written : ∀ {sec : List (Made Op Os)} {g : M Int}, Trace (act b) g (sec ++ rest) →
    g.Keeps transactions .written post → (∀ m ∈ sec, m.op ≠ .endOp) → ∀ m ∈ sec, quiet m.op = true
  | [], _, _, _, _ => fun m hm => nomatch hm
  | m :: sec, g, h, hk, hsec => by
    obtain ⟨x, g', -, hrest, hneed, hk'⟩ := Trace.cons_inv h hk
    have hsec' : ∀ m ∈ sec, m.op ≠ .endOp := fun m' hm' => hsec m' (List.mem_cons_of_mem m hm')
    rcases need_inside hneed (fun h => nomatch h) (hsec m List.mem_cons_self) with ⟨hq, hafter⟩ | ⟨hr, -⟩
    · rw [hafter] at hk'
      intro m' hm'
      rcases List.mem_cons.mp hm' with rfl | hm'
      · exact hq
      · exact quiet_of_written hrest (hk' trivial) hsec' m' hm'
    · cases hr

theorem one_writei : ∀ {sec : List (Made Op Os)} {g : M Int}, Trace (act b) g (sec ++ rest) →
    g.Keeps transactions .begun post → (∀ m ∈ sec, m.op ≠ .endOp) → (∀ m ∈ sec, quiet m.op = true) ∨
      ∃ q w q', sec = q ++ w :: q' ∧ (∀ m ∈ q ++ q', quiet m.op = true) ∧ ∃ i src off n, w.op = .writei i src off n
  | [], _, _, _, _ => .inl fun m hm => nomatch hm
  | m :: sec, g, h, hk, hsec => by
    obtain ⟨x, g', -, hrest, hneed, hk'⟩ := Trace.cons_inv h hk
    have hsec' : ∀ m ∈ sec, m.op ≠ .endOp := fun m' hm' => hsec m' (List.mem_cons_of_mem m hm')
    rcases need_inside hneed (fun h => nomatch h) (hsec m List.mem_cons_self) with ⟨hq, hafter⟩ | ⟨-, hw, hafter⟩
    · rw [hafter] at hk'
      rcases one_writei hrest (hk' trivial) hsec' with hall | ⟨q, w, q', rfl, hall, hw⟩
      · exact .inl (List.forall_mem_cons.mpr ⟨hq, hall⟩)
      · exact .inr ⟨m :: q, w, q', rfl, List.forall_mem_cons.mpr ⟨hq, hall⟩, hw⟩
    · rw [hafter] at hk'
      exact .inr ⟨[], m, sec, rfl, quiet_of_written hrest (hk' trivial) hsec', hw⟩

/-! ### What a transaction logs -/

theorem ilock_logged {fs fs' : Fs} {i : InodeIdx} (h : fs.ilock i = .ok fs') : fs'.logged = fs.logged := by
  rw [Fs.ilock] at h
  dsimp only at h
  split at h
  · cases h
  · split at h
    · cases h
    · split at h
      · cases h
        rfl
      · obtain ⟨x, -, h⟩ := bind_eq_ok.mp h
        split at h <;> cases h
        rfl

theorem iunlock_logged {fs fs' : Fs} {i : InodeIdx} (h : fs.iunlock i = .ok fs') : fs'.logged = fs.logged := by
  rw [Fs.iunlock] at h
  split at h <;> cases h
  rfl

theorem quiet_logged {o : Op} {os os' : Os} {x : Res o} (hq : quiet o = true) (h : act b o os = .ok (x, os')) :
    os'.fs.logged = os.fs.logged := by
  cases o with
  | ilock i =>
    obtain ⟨fs, hlock, hpure⟩ := bind_eq_ok.mp h
    cases hpure
    exact ilock_logged hlock
  | iunlock i =>
    obtain ⟨fs, hunlock, hpure⟩ := bind_eq_ok.mp h
    cases hpure
    exact iunlock_logged hunlock
  | inode i | off f | setOff f off | pipeIo q data nread nwrite =>
    cases h
    rfl
  | _ => cases hq

/-- The blocks that were given to `log_write` in the steps. -/
def blocksOf (sec : List (Made Op Os)) : Finset Nat := (sec.flatMap fun m => m.before.fs.loggedSince m.after.fs).toFinset

theorem blocksOf_append (q q' : List (Made Op Os)) : blocksOf (q ++ q') = blocksOf q ∪ blocksOf q' := by
  rw [blocksOf, List.flatMap_append, List.toFinset_append]
  rfl

theorem Trace.act {g : M Int} {tr : List (Made Op Os)} (h : Trace (Calls.act b) g tr) :
    ∀ m ∈ tr, ∃ x, Calls.act b m.op m.before = .ok (x, m.after) := by
  induction h with
  | nil g => exact fun m hm => nomatch hm
  | op hact _ ih => exact List.forall_mem_cons.mpr ⟨⟨_, hact⟩, ih⟩

theorem blocksOf_quiet {q : List (Made Op Os)} (hq : ∀ m ∈ q, quiet m.op = true)
    (hact : ∀ m ∈ q, ∃ x, act b m.op m.before = .ok (x, m.after)) : blocksOf q = ∅ := by
  rw [blocksOf, List.flatMap_eq_nil_iff.mpr, List.toFinset_nil]
  intro m hm
  obtain ⟨x, hx⟩ := hact m hm
  rw [Fs.loggedSince, quiet_logged (hq m hm) hx, Nat.sub_self, List.take_zero]

/-- A `writei` that writes to a file: the file system is in order, and the file is locked. -/
def OnFile (m : Made Op Os) : Prop := ∀ i src off n, m.op = .writei i src off n →
  m.before.fs.Wf ∧ m.before.fs.Locked i ∧ (m.before.fs.inode i).type.toNat = T_FILE

/-- The `writei` gives at most `MAXOPBLOCKS` blocks to the log, unless it fails at once. -/
def Fits (m : Made Op Os) : Prop := ∀ i src off n, m.op = .writei i src off n →
  ¬Fs.Rejects (m.before.fs.inode i).size.toNat off.toNat n.toNat → m.before.fs.writeBlocks i off.toNat n.toNat ≤ MAXOPBLOCKS

theorem writei_fits {m : Made Op Os} (hfile : OnFile m) (hact : ∃ x, act b m.op m.before = .ok (x, m.after))
    (hw : ∃ i src off n, m.op = .writei i src off n) : (blocksOf [m]).card ≤ MAXOPBLOCKS ↔ Fits m := by
  obtain ⟨o, os, os'⟩ := m
  obtain ⟨i, src, off, n, rfl⟩ := hw
  obtain ⟨x, hact⟩ := hact
  change act b (.writei i src off n) os = .ok (x, os') at hact
  obtain ⟨wf, hl, htype⟩ := hfile i src off n rfl
  obtain ⟨⟨r, fs'⟩, hwrite, hpure⟩ := bind_eq_ok.mp hact
  cases hpure
  have hdev : (os.fs.inode i).type.toNat ≠ T_DEV := by
    rw [htype]
    decide
  have hblocks : blocksOf [⟨.writei i src off n, os, os.setFs fs'⟩] = (os.fs.loggedSince fs').toFinset := by
    rw [blocksOf, List.flatMap_singleton]
    rfl
  rw [hblocks]
  by_cases hacc : Fs.Rejects (os.fs.inode i).size.toNat off.toNat n.toNat
  · rw [Fs.writei_reject hdev hacc] at hwrite
    cases hwrite
    refine iff_of_true ?_ fun i' src' off' n' heq hnot => ?_
    · rw [(Fs.Logs.of_eq rfl).loggedSince]
      exact Nat.zero_le _
    · cases heq
      exact absurd hacc hnot
  · obtain ⟨S, hlogs, hcard⟩ := Fs.writei_logs wf hl hdev hacc hwrite
    rw [hlogs.loggedSince, hcard]
    constructor
    · intro h i' src' off' n' heq _
      cases heq
      exact h
    · exact fun h => h i src off n rfl hacc

/-! ### The first transaction -/

def opened : File := { type := .inode, ref := 1, writable := true }

theorem filewrite_first {fs fs₁ fs₂ : Fs} {addr : Nat → UInt8} {n r : Int} (io : PipeIo) (hpos : 0 < n) (hmax : n ≤ writeMax)
    (hlock : fs.ilock 0 = .ok fs₁) (htype : (fs₁.inode 0).type.toNat = T_FILE) (wf : fs₁.Wf) (hl : fs₁.Locked 0)
    (hwrite : fs₁.writei b.devsw 0 addr 0 (uint n) = .ok (r, fs₂)) :
    ∃ os os' sec, Trace (act b) (filewrite b.devsw 0 opened addr n io) ([] ++ ⟨.beginOp, os, os'⟩ :: (sec ++ [])) ∧
      (∀ m ∈ sec, m.op ≠ .endOp) ∧ (∀ m ∈ sec, OnFile m) ∧ blocksOf sec = (fs₁.loggedSince fs₂).toFinset := by
  obtain ⟨k, hk⟩ : ∃ k, n.toNat = k + 1 := ⟨n.toNat - 1, by omega⟩
  have hprog : filewrite b.devsw 0 opened addr n io = filewriteFrom (filewritePart b.devsw 0 0 addr) n (k + 1) 0 := by
    rw [← hk]
    rfl
  generalize hos : ({ fs := fs, file := fun _ => opened } : Os) = os
  have hfs : os.fs = fs := by rw [← hos]
  have hlocked : act b (.ilock 0) os.beginOp = .ok ((), os.beginOp.setFs fs₁) := by
    change (os.fs.ilock 0 >>= _) = _
    rw [hfs, hlock]
    rfl
  have hwritten : act b (.writei 0 addr 0 (uint n)) (os.beginOp.setFs fs₁) = .ok (r, (os.beginOp.setFs fs₁).setFs fs₂) := by
    change (fs₁.writei b.devsw 0 addr 0 (uint n) >>= _) = _
    rw [hwrite]
    rfl
  refine ⟨os, os.beginOp, [⟨.ilock 0, os.beginOp, os.beginOp.setFs fs₁⟩, ⟨.off 0, os.beginOp.setFs fs₁, os.beginOp.setFs fs₁⟩,
    ⟨.inode 0, os.beginOp.setFs fs₁, os.beginOp.setFs fs₁⟩,
    ⟨.writei 0 addr 0 (uint n), os.beginOp.setFs fs₁, (os.beginOp.setFs fs₁).setFs fs₂⟩], ?_, ?_, ?_, ?_⟩
  · rw [hprog, filewriteFrom, if_pos hpos]
    have hn : (if writeMax < n - 0 then writeMax else n - 0) = n := by
      rw [if_neg (by omega), Int.sub_zero]
    have haddr : (fun j => addr ((0 : Int).toNat + j)) = addr := funext fun j => by rw [Int.toNat_zero, Nat.zero_add]
    have hdev : (fs₁.inode 0).type.toNat ≠ T_DEV := by
      rw [htype]
      decide
    simp only [hn, filewritePart, haddr]
    refine .op (x := ()) rfl (.op (x := ()) hlocked (.op (x := 0) ?_ (.op (x := fs₁.inode 0) rfl ?_)))
    · rw [← hos]
      rfl
    · simp only [Prog.bind, if_neg hdev]
      exact .op (x := r) hwritten (.nil _)
  · intro m hm
    simp only [List.mem_cons, List.not_mem_nil, or_false] at hm
    rcases hm with rfl | rfl | rfl | rfl <;> exact fun h => nomatch h
  · intro m hm i src off n' heq
    simp only [List.mem_cons, List.not_mem_nil, or_false] at hm
    rcases hm with rfl | rfl | rfl | rfl <;> cases heq
    exact ⟨wf, hl, htype⟩
  · have hsame : os.fs.loggedSince fs₁ = [] := by
      rw [hfs, Fs.loggedSince, ilock_logged hlock, Nat.sub_self, List.take_zero]
    have hself : fs₁.loggedSince fs₁ = [] := by rw [Fs.loggedSince, Nat.sub_self, List.take_zero]
    change (os.fs.loggedSince fs₁ ++ (fs₁.loggedSince fs₁ ++ (fs₁.loggedSince fs₁ ++ (fs₁.loggedSince fs₂ ++ [])))).toFinset = _
    rw [hsame, hself, List.append_nil]
    rfl

def newFile : Outcome Fs := runList (Fs.step Kernel.plain.devsw) Fs.blank [.ialloc 2]

theorem filewrite_newFile (n : Int) (blocks : Nat) (hpos : 0 < n) (hmax : n ≤ writeMax)
    (hnew : ∃ fs, newFile = .ok fs ∧ 0 < (fs.inode 0).ref ∧ ∃ fs₁, fs.ilock 0 = .ok fs₁ ∧ fs₁.Locked 0 ∧ (fs₁.inode 0).type = 2 ∧
      ∃ r, fs₁.writei Kernel.plain.devsw 0 (fun _ => 7) 0 (uint n) = .ok r ∧ (fs₁.loggedSince r.2).toFinset.card = blocks) :
    ∃ os os' sec, Trace (act Kernel.plain) (filewrite Kernel.plain.devsw 0 opened (fun _ => 7) n ⟨0, fun _ => 0, 0, 0⟩)
        ([] ++ ⟨.beginOp, os, os'⟩ :: (sec ++ [])) ∧
      (∀ m ∈ sec, m.op ≠ .endOp) ∧ (∀ m ∈ sec, OnFile m) ∧ (blocksOf sec).card = blocks := by
  obtain ⟨fs, hrun, href, fs₁, hlock, hl, htype, ⟨r, fs₂⟩, hwrite, hcard⟩ := hnew
  have hr : Fs.Reached Kernel.plain.devsw fs := Reachable.runList (fun _ _ => trivial) (.init Fs.blank_wf) hrun
  have hr₁ : Fs.Reached Kernel.plain.devsw fs₁ := hr.step (.ilock 0) trivial ((if_pos href).trans hlock)
  obtain ⟨os, os', sec, htr, hsec, hfile, hblocks⟩ := filewrite_first ⟨0, fun _ => 0, 0, 0⟩ hpos hmax hlock
    (congrArg UInt16.toNat htype) hr₁.wf hl hwrite
  refine ⟨os, os', sec, htr, hsec, hfile, ?_⟩
  rw [hblocks]
  exact hcard

/-- A transaction of `filewrite` keeps to its reservation if and only if the blocks of its data, those of the bitmap and
    the indirect block that it needs for new blocks, and the inode of a file that grows, are at most `MAXOPBLOCKS`. -/
theorem filewrite_reservation_iff {f : Nat} {ff : File} {addr : Nat → UInt8} {n : Int} {io : PipeIo} {pre sec rest : List (Made Op Os)}
    {os os' : Os} (htr : Trace (act b) (filewrite b.devsw f ff addr n io) (pre ++ ⟨.beginOp, os, os'⟩ :: (sec ++ rest)))
    (hsec : ∀ m ∈ sec, m.op ≠ .endOp) (hfile : ∀ m ∈ sec, OnFile m) :
    (blocksOf sec).card ≤ MAXOPBLOCKS ↔ ∀ m ∈ sec, Fits m := by
  have hact : ∀ m ∈ sec, ∃ x, act b m.op m.before = .ok (x, m.after) := fun m hm =>
    Trace.act htr m (List.mem_append_right _ (List.mem_cons_of_mem _ (List.mem_append_left _ hm)))
  have hquiet : ∀ m ∈ sec, quiet m.op = true → Fits m := by
    intro m hm hq i src off n heq
    rw [heq] at hq
    cases hq
  obtain ⟨g, r, htr, hk⟩ := Prog.Trace.drop (fun _ _ _ => trivial) htr (filewrite_transactions b.devsw f ff addr n io)
  obtain ⟨x, g', -, htr', -, hk'⟩ := Prog.Trace.cons_inv htr hk
  rcases one_writei htr' (hk' trivial) hsec with hall | ⟨q, w, q', rfl, hall, hw⟩
  · rw [blocksOf_quiet hall hact]
    exact iff_of_true (Nat.zero_le _) fun m hm => hquiet m hm (hall m hm)
  · have hq : blocksOf q = ∅ := blocksOf_quiet (fun m hm => hall m (List.mem_append_left _ hm)) fun m hm =>
      hact m (List.mem_append_left _ hm)
    have hq' : blocksOf q' = ∅ := blocksOf_quiet (fun m hm => hall m (List.mem_append_right _ hm)) fun m hm =>
      hact m (List.mem_append_right _ (List.mem_cons_of_mem _ hm))
    have hmem : w ∈ q ++ w :: q' := List.mem_append_right _ List.mem_cons_self
    have hblocks : blocksOf (q ++ w :: q') = blocksOf [w] := by
      rw [blocksOf_append, hq, Finset.empty_union, ← List.singleton_append, blocksOf_append, hq', Finset.union_empty]
    rw [hblocks, writei_fits (hfile w hmem) (hact w hmem) hw]
    constructor
    · intro hfits m hm
      rcases List.mem_append.mp hm with hq | hq
      · exact hquiet m hm (hall m (List.mem_append_left _ hq))
      · rcases List.mem_cons.mp hq with rfl | hq
        · exact hfits
        · exact hquiet m hm (hall m (List.mem_append_right _ hq))
    · exact fun h => h w hmem

/-- A block of data, one of the bitmap and one of inodes. -/
theorem filewrite_reservation_one_block : ∃ os os' sec,
    Trace (act Kernel.plain) (filewrite Kernel.plain.devsw 0 opened (fun _ => 7) 512 ⟨0, fun _ => 0, 0, 0⟩)
        ([] ++ ⟨.beginOp, os, os'⟩ :: (sec ++ [])) ∧
      (∀ m ∈ sec, m.op ≠ .endOp) ∧ (∀ m ∈ sec, OnFile m) ∧ (blocksOf sec).card = 3 ∧ ∀ m ∈ sec, Fits m := by
  obtain ⟨os, os', sec, htr, hsec, hfile, hcard⟩ := filewrite_newFile 512 3 (by decide) (by decide)
    (by decide +kernel)
  have hle : (blocksOf sec).card ≤ MAXOPBLOCKS := hcard.trans_le (by decide)
  exact ⟨os, os', sec, htr, hsec, hfile, hcard, (filewrite_reservation_iff htr hsec hfile).mp hle⟩

/-- A write of `writeMax` bytes gives 16 blocks to the log in one transaction. -/
theorem filewrite_exceeds_reservation : ∃ os os' sec,
    Trace (act Kernel.plain) (filewrite Kernel.plain.devsw 0 opened (fun _ => 7) 6656 ⟨0, fun _ => 0, 0, 0⟩)
        ([] ++ ⟨.beginOp, os, os'⟩ :: (sec ++ [])) ∧
      (∀ m ∈ sec, m.op ≠ .endOp) ∧ (blocksOf sec).card = 16 ∧ MAXOPBLOCKS < (blocksOf sec).card := by
  obtain ⟨os, os', sec, htr, hsec, -, hcard⟩ := filewrite_newFile 6656 16 (by decide) (by decide)
    (by decide +kernel)
  refine ⟨os, os', sec, htr, hsec, hcard, ?_⟩
  rw [hcard]
  decide

end Calls
end Xv6
