import Xv6.Theorems.Transfer

/-! The calls of `Transfer`, run alone: they move the bytes that the pipe, the console and the file system do in models of
    their own. -/

namespace Xv6
namespace Transfer
open Function (update)
open Outcome (ok_bind)

/-- A machine with one process: its memory, and what it finds in the kernel. `bp` is the block that was read last. -/
structure State where
  mem : UInt32 → UInt8
  pipe : Pipe
  input : Console.Input
  fs : Fs
  bp : Nat

def poke (mem : UInt32 → UInt8) (addr : UInt32) : List UInt8 → UInt32 → UInt8
  | [] => mem
  | b :: bs => poke (update mem addr b) (addr + 1) bs

/-- What the operations do there, for a process that has the inode `i` locked; the locks themselves are left out. -/
@[simp] def act (i : InodeIdx) (killed : Bool) : (o : Op) → State → Outcome (Res o × State)
  | .store addr bs, s => .ok ((), { s with mem := poke s.mem addr bs })
  | .load addr _, s => .ok (fun j => s.mem (addr + .ofNat j), s)
  | .pipe, s => .ok (s.pipe, s)
  | .release p, s => .ok ((), { s with pipe := p })
  | .killed, s => .ok (killed, s)
  | .bread bn, s => do
    let (addr, fs) ← s.fs.bmap i bn
    let x ← fs.bread (fs.inode i).dev addr
    pure (x, { s with fs := fs, bp := addr })
  | .logWrite _ x, s => .ok ((), { s with fs := s.fs.logWrite s.bp x })
  | .iupdate size, s => do
    let fs ← (s.fs.setInode i { s.fs.inode i with size := size }).iupdate i
    pure ((), { s with fs := fs })
  | .getc, s =>
    if s.input.r = s.input.w then if killed then .ok (none, s) else .sleep
    else .ok (some (s.input.buf (Ring.cell INPUT_BUF s.input.r)), { s with input.r := s.input.r + 1 })
  | .ungetc, s => .ok ((), { s with input.r := s.input.r - 1 })
  | _, _ => .sleep

variable {i : InodeIdx} {killed : Bool} {addr : UInt32}

theorem run_call {β : Type} {o : Op} {f : Res o → M β} {s : State} :
    (call o >>= f).run (act i killed) s = act i killed o s >>= fun r => (f r.1).run (act i killed) r.2 := rfl

theorem run_pure {β : Type} {a : β} {s : State} : (pure a : M β).run (act i killed) s = .ok (a, s) := rfl

theorem add_ofNat_zero (addr : UInt32) : addr + .ofNat 0 = addr := UInt32.add_zero addr

theorem add_ofNat_add (addr : UInt32) (j k : Nat) : addr + .ofNat j + .ofNat k = addr + .ofNat (j + k) := by
  rw [UInt32.ofNat_add, UInt32.add_assoc]

theorem poke_append (bs bs' : List UInt8) : ∀ (mem : UInt32 → UInt8) (addr : UInt32),
    poke mem addr (bs ++ bs') = poke (poke mem addr bs) (addr + .ofNat bs.length) bs' := by
  induction bs with
  | nil => exact fun mem addr => by rw [List.length_nil, add_ofNat_zero]; rfl
  | cons b bs ih =>
    intro mem addr
    rw [List.cons_append, poke, ih, poke, List.length_cons, Nat.add_comm, ← add_ofNat_add]
    rfl

/-! ### Pipes -/

theorem pipereadWait_run (rounds : Nat) (s : State) : (pipereadWait (rounds + 1)).run (act i killed) s =
    if s.pipe.Empty ∧ s.pipe.writeopen = true then if killed then .ok (none, s) else .sleep else .ok (some s.pipe, s) := by
  induction rounds with
  | zero =>
    rw [pipereadWait, run_call, act, ok_bind]
    split
    · cases killed <;> rfl
    · rfl
  | succ rounds ih =>
    rw [pipereadWait, run_call, act, ok_bind]
    split
    · rename_i hempty
      cases killed with
      | true => rfl
      | false => exact ih.trans (if_pos hempty)
    · rfl

/-- `piperead` gives the process what `drain` takes out of the pipe. -/
theorem piperead_run (rounds : Nat) (n : Int) (s : State) : (piperead (rounds + 1) addr n).run (act i killed) s =
    if s.pipe.Empty ∧ s.pipe.writeopen = true then if killed then .ok (-1, s) else .sleep
    else .ok ((s.pipe.drain n.toNat).1.length,
      { s with pipe := (s.pipe.drain n.toNat).2, mem := poke s.mem addr (s.pipe.drain n.toNat).1 }) := by
  rw [piperead, Prog.run_bind, pipereadWait_run]
  split
  · cases killed <;> rfl
  · rw [ok_bind]
    dsimp only
    rw [run_call, act, ok_bind]
    rfl

theorem pipewriteWait_run {p : Pipe} (hfull : p.Full) (rounds : Nat) (s : State) : (pipewriteWait (rounds + 1) p).run (act i killed) s =
    if p.readopen = false ∨ killed = true then .ok (none, { s with pipe := p }) else .sleep := by
  induction rounds generalizing s with
  | zero =>
    rw [pipewriteWait, if_pos hfull, run_call, act, ok_bind, run_call, act, ok_bind]
    split <;> rfl
  | succ rounds ih =>
    rw [pipewriteWait, if_pos hfull, run_call, act, ok_bind, run_call, act, ok_bind]
    split
    · rfl
    · rename_i hgo
      exact (ih _).trans (if_neg hgo)

theorem pipewriteFrom_run (rounds left : Nat) (s : State) : ∀ (k : Nat) (p : Pipe),
    (pipewriteFrom (rounds + 1) addr left k p).run (act i killed) s =
      let r := p.fill ((List.range' k left).map fun j => s.mem (addr + .ofNat j))
      if r.2 = [] then .ok (some r.1, s)
      else if r.1.readopen = false ∨ killed = true then .ok (none, { s with pipe := r.1 }) else .sleep := by
  induction left with
  | zero => exact fun k p => rfl
  | succ left ih =>
    intro k p
    rw [pipewriteFrom, Prog.run_bind, List.range'_succ, List.map_cons, Pipe.fill]
    by_cases hfull : p.Full
    · rw [if_pos hfull, pipewriteWait_run hfull]
      dsimp only
      rw [if_neg (List.cons_ne_nil _ _)]
      split <;> rfl
    · rw [if_neg hfull, pipewriteWait, if_neg hfull]
      rw [run_pure, ok_bind, run_call, act, ok_bind, ih]
      dsimp only
      rw [add_ofNat_add, Nat.add_zero]

/-- `pipewrite` puts what `fill` does into the pipe. -/
theorem pipewrite_run (rounds : Nat) (n : Int) (s : State) : (pipewrite (rounds + 1) addr n).run (act i killed) s =
    let r := s.pipe.fill ((List.range n.toNat).map fun j => s.mem (addr + .ofNat j))
    if r.2 = [] then .ok (n, { s with pipe := r.1 })
    else if r.1.readopen = false ∨ killed = true then .ok (-1, { s with pipe := r.1 }) else .sleep := by
  rw [pipewrite, run_call, act, ok_bind, Prog.run_bind, pipewriteFrom_run, List.range_eq_range']
  dsimp only
  split
  · rfl
  · split <;> rfl

/-! ### The console -/

/-- `consoleread` of the console's model, from one `sleep` to the next. -/
theorem consolereadFrom_run (target n : Nat) (mem : UInt32 → UInt8) : ∀ (dst : List UInt8) (s : State), s.mem = poke mem addr dst →
    ∃ mem', (consolereadFrom addr target n dst.length).run (act i killed) s =
      match s.input.consoleread killed target n dst with
      | (.sleep _ _, _) => .sleep
      | (.done dst, input) => .ok (dst.length, { s with input := input, mem := poke mem addr dst })
      | (.killed, input) => .ok (-1, { s with input := input, mem := mem' }) := by
  induction n with
  | zero =>
    rintro dst ⟨-, pipe, input, fs, bp⟩ rfl
    exact ⟨mem, rfl⟩
  | succ n ih =>
    rintro dst ⟨m, pipe, input, fs, bp⟩ hmem
    rw [consolereadFrom, Console.Input.consoleread, run_call, act]
    dsimp only at hmem ⊢
    subst hmem
    by_cases hempty : input.r = input.w
    · rw [if_pos hempty, if_pos hempty]
      cases killed with
      | false => exact ⟨mem, rfl⟩
      | true => exact ⟨poke mem addr dst, rfl⟩
    rw [if_neg hempty, if_neg hempty, ok_bind]
    obtain ⟨c, hc⟩ : ∃ c, c = input.buf (Ring.cell INPUT_BUF input.r) := ⟨_, rfl⟩
    dsimp only
    rw [← hc]
    by_cases heof : c = Console.ctrl 'D'
    · rw [if_pos heof, if_pos heof]
      refine ⟨mem, ?_⟩
      split <;> rfl
    rw [if_neg heof, if_neg heof, run_call, act, ok_bind]
    have hnext : poke (poke mem addr dst) (addr + .ofNat dst.length) [c] = poke mem addr (dst ++ [c]) := (poke_append ..).symm
    dsimp only
    rw [hnext]
    have hlen : (dst ++ [c]).length = dst.length + 1 := List.length_append
    split
    · refine ⟨mem, ?_⟩
      dsimp only
      rw [hlen]
      rfl
    · rw [← hlen]
      exact ih (dst ++ [c]) _ rfl

/-! ### Files -/

/-- A round of the loops reads a block as the loops of `Fs` do; `out` is what a run leaves behind. -/
theorem bread_run {α β : Type} {bn : Nat} {f : Block → M β} {s : State} {g : Nat × Fs → Block → Outcome α} {out : Nat → α → Outcome (β × State)}
    (h : ∀ r x, ∃ bp, (f x).run (act i killed) { s with fs := r.2, bp := r.1 } = g r x >>= out bp) :
    ∃ bp, (if MAXFILE ≤ bn then .halt (some "bmap: out of range") else call (.bread bn) >>= f : M β).run (act i killed) s =
      (s.fs.bmap i bn >>= fun r => r.2.bread (r.2.inode i).dev r.1 >>= g r) >>= out bp := by
  split
  · rename_i hmax
    simp only [MAXFILE] at hmax
    rw [Fs.bmap, if_neg (by omega)]
    dsimp only
    rw [if_neg (by omega)]
    exact ⟨0, rfl⟩
  · rw [run_call, act]
    cases s.fs.bmap i bn with
    | sleep | panic msg => exact ⟨0, rfl⟩
    | ok r =>
      rw [ok_bind, ok_bind]
      dsimp only
      cases r.2.bread (r.2.inode i).dev r.1 with
      | sleep | panic msg => exact ⟨0, rfl⟩
      | ok x => exact h r x

theorem readiLoop_run (n left : Nat) : ∀ (off tot : Nat) (s : State), ∃ bp, (readiLoop addr n left off tot).run (act i killed) s =
    s.fs.readiLoop i n left off tot >>= fun r => .ok ((), { s with fs := r.2, mem := poke s.mem (addr + .ofNat tot) r.1, bp := bp }) := by
  induction left with
  | zero => exact fun off tot s => ⟨s.bp, rfl⟩
  | succ left ih =>
    intro off tot s
    rw [readiLoop, Fs.readiLoop]
    split
    case isFalse => exact ⟨s.bp, rfl⟩
    refine bread_run fun r x => ?_
    dsimp only
    generalize min (n - tot) (BSIZE - off % BSIZE) = m
    rw [run_call, act, ok_bind]
    obtain ⟨bp, hrest⟩ := ih (off + m) (tot + m) { s with fs := r.2, bp := r.1, mem := poke s.mem (addr + .ofNat tot) (x.getBytes (off % BSIZE) m) }
    refine ⟨bp, hrest.trans ?_⟩
    dsimp only
    cases r.2.readiLoop i n left (off + m) (tot + m) with
    | sleep | panic msg => rfl
    | ok y =>
      simp only [ok_bind, Outcome.pure_eq]
      rw [poke_append, Bytes.Buffer.length_getBytes, add_ofNat_add]

theorem writeiLoop_run (n left : Nat) : ∀ (off tot : Nat) (s : State), ∃ bp, (writeiLoop addr n left off tot).run (act i killed) s =
    s.fs.writeiLoop i (fun j => s.mem (addr + .ofNat j)) n left off tot >>= fun r => .ok (r.1, { s with fs := r.2, bp := bp }) := by
  induction left with
  | zero => exact fun off tot s => ⟨s.bp, rfl⟩
  | succ left ih =>
    intro off tot s
    rw [writeiLoop, Fs.writeiLoop]
    split
    case isFalse => exact ⟨s.bp, rfl⟩
    refine bread_run fun r x => ?_
    dsimp only
    rw [run_call, act, ok_bind, run_call, act, ok_bind]
    simp only [add_ofNat_add]
    exact ih _ _ _

theorem int_of_le {n : UInt32} (h : n.toNat ≤ MAXFILE * BSIZE) : int n = n.toNat := by
  have : MAXFILE * BSIZE < 2 ^ 31 := by decide
  rw [int_eq, if_pos (by omega)]

variable {s : State} {devsw : DevSw} {off n : UInt32} (wf : s.fs.Wf) (hl : s.fs.Locked i) (htype : (s.fs.inode i).type.toNat ≠ T_DEV)
include wf hl htype

/-- `readi` gives the process what it gives the callers in the file system. -/
theorem readi_run : ∃ bp, (readi (s.fs.inode i) addr off n).run (act i killed) s =
    s.fs.readi devsw i off n >>= fun r => .ok (r.1, { s with fs := r.2.2, mem := poke s.mem addr r.2.1, bp := bp }) := by
  rw [readi, Fs.readi, if_neg htype, if_neg htype]
  by_cases hr : Readable (s.fs.inode i) off n
  case neg =>
    rw [if_pos (not_not.mp hr), if_pos (not_not.mp hr)]
    exact ⟨s.bp, rfl⟩
  rw [if_neg hr, if_neg hr]
  have hlen : int (amount (s.fs.inode i) off n) = (amount (s.fs.inode i) off n).toNat := by
    have := wf.size_le hl htype
    have := hr.toNat_amount
    exact int_of_le (by omega)
  obtain ⟨bp, hloop⟩ := @readiLoop_run i killed addr (amount (s.fs.inode i) off n).toNat
    (amount (s.fs.inode i) off n).toNat off.toNat 0 s
  refine ⟨bp, ?_⟩
  rw [amount] at hloop hlen
  dsimp only
  rw [Prog.run_bind, hloop, hlen, add_ofNat_zero]
  cases s.fs.readiLoop i _ _ off.toNat 0 with
  | sleep | panic msg => rfl
  | ok r => rfl

/-- `writei` takes from the process what the callers in the file system hand over. -/
theorem writei_run : ∃ bp, (writei (s.fs.inode i) addr off n).run (act i killed) s =
    s.fs.writei devsw i (fun j => s.mem (addr + .ofNat j)) off n >>= fun r => .ok (r.1, { s with fs := r.2, bp := bp }) := by
  rw [writei, Fs.writei, if_neg htype, if_neg htype]
  by_cases hfirst : (s.fs.inode i).size < off ∨ off + n < off
  · rw [if_pos hfirst, if_pos hfirst]
    exact ⟨s.bp, rfl⟩
  rw [if_neg hfirst, if_neg hfirst]
  by_cases hsecond : UInt32.ofNat (MAXFILE * BSIZE) < off + n
  · rw [if_pos hsecond, if_pos hsecond]
    exact ⟨s.bp, rfl⟩
  rw [if_neg hsecond, if_neg hsecond]
  rw [UInt32.lt_iff_toNat_lt, Readable.toNat_add hfirst] at hsecond
  have hmax : off.toNat + n.toNat ≤ MAXFILE * BSIZE := Nat.not_lt.mp hsecond
  have hn : int n = n.toNat := int_of_le (by omega)
  obtain ⟨bp, hrun⟩ := @writeiLoop_run i killed addr n.toNat n.toNat off.toNat 0 s
  have hloop := @Fs.writeiLoop_spec i _ n.toNat (fun j => s.mem (addr + .ofNat j)) (Nat.le_refl _) n.toNat s.fs off.toNat 0
    (wf.working hl) (Nat.sub_le _ _) (Nat.zero_le _) hmax
  refine ⟨bp, ?_⟩
  rw [Prog.run_bind, hrun]
  cases hok : s.fs.writeiLoop i (fun j => s.mem (addr + .ofNat j)) n.toNat n.toNat off.toNat 0 with
  | sleep | panic msg => rfl
  | ok r =>
    rw [hok] at hloop
    have hsize : (r.2.inode i).size = (s.fs.inode i).size := by rw [hloop.2.1.slot]
    simp only [ok_bind, hn, hsize]
    split
    · rw [run_call, act]
      dsimp only
      cases (r.2.setInode i { r.2.inode i with size := .ofNat r.1 }).iupdate i <;> rfl
    · rfl

end Transfer
end Xv6
