import Xv6.Theorems.Filewrite
import Xv6.Transfer

/-! Which memory of a process the kernel reads and writes for it: the buffers of `read` and `write`, what `wait` and
    `wait_stat` report, and the stack on which a signal is delivered. -/

namespace Xv6
open Outcome (bind_eq_ok)
namespace Transfer

/-- Whatever is found in the kernel, only operations are made that the discipline allows. -/
def Safe {α ρ : Type} (D : Prog.Discipline Op Res ρ) (g : M α) : Prop := ∀ r, g.Keeps D r fun _ _ => True

section Safe
variable {α β ρ : Type} {D : Prog.Discipline Op Res ρ} {g : M α} {f : α → M β} {o : Op}

theorem Safe.bind (h : Safe D g) (hf : ∀ a, Safe D (f a)) : Safe D (g >>= f) := fun r =>
  (h r).bind fun a r' _ => hf a r'

theorem Safe.pure (a : α) : Safe D (Pure.pure a : M α) := fun _ => trivial

theorem Safe.halt (why : Option String) : Safe D (.halt why : M α) := fun _ => trivial

theorem Safe.call (h : ∀ r, D.need o r) : Safe D (call o) := fun r => ⟨h r, fun _ _ => trivial⟩

end Safe

/-- The bytes that are read or stored are below `sz`. -/
def Op.Inside (sz : Nat) : Op → Prop
  | .store addr bs => addr.toNat + bs.length ≤ sz
  | .load addr n => addr.toNat + n ≤ sz
  | _ => True

/-! ### Buffers -/

theorem toNat_add_ofNat {addr : UInt32} {i : Nat} (h : addr.toNat + i < 2 ^ 32) : (addr + .ofNat i).toNat = addr.toNat + i := by
  rw [UInt32.toNat_add, UInt32.toNat_ofNat', Nat.mod_eq_of_lt (a := i) (by omega), Nat.mod_eq_of_lt h]

theorem length_drain_le : ∀ (n : Nat) (p : Pipe), (p.drain n).1.length ≤ n
  | 0, p => Nat.le_refl 0
  | n + 1, p => by
    rw [Pipe.drain]
    split
    · exact Nat.zero_le _
    · exact Nat.succ_le_succ (length_drain_le n _)

theorem int_eq (n : UInt32) : int n = if n.toNat < 2 ^ 31 then (n.toNat : Int) else n.toNat - 2 ^ 32 := by
  have hint : int n = n.toBitVec.toInt := rfl
  have hnat : n.toBitVec.toNat = n.toNat := rfl
  rw [hint, BitVec.toInt_eq_toNat_cond, hnat]
  split <;> split <;> omega

theorem toNat_int_le (n : UInt32) : (int n).toNat ≤ n.toNat := by
  have := n.toNat_lt
  rw [int_eq]
  split <;> omega

theorem toNat_uint {i : Int} (h0 : 0 ≤ i) (h : i < 2 ^ 32) : (Calls.uint i).toNat = i.toNat := by
  rw [Calls.uint, Int.emod_eq_of_lt h0 h, UInt32.toNat_ofNat', Nat.mod_eq_of_lt (by omega)]

def amount (ip : Inode) (off n : UInt32) : UInt32 := if ip.size < off + n then ip.size - off else n

/-- The offset is in the file, and the end of the read does not wrap around. -/
def Readable (ip : Inode) (off n : UInt32) : Prop := ¬(ip.size < off ∨ off + n < off)

theorem Readable.toNat_add {ip : Inode} {off n : UInt32} (h : Readable ip off n) : (off + n).toNat = off.toNat + n.toNat := by
  have hle := mt (Or.inr (a := ip.size < off)) h
  rw [UInt32.lt_iff_toNat_lt, UInt32.toNat_add] at hle
  rw [UInt32.toNat_add]
  have := off.toNat_lt
  have := n.toNat_lt
  omega

theorem Readable.off_le {ip : Inode} {off n : UInt32} (h : Readable ip off n) : off.toNat ≤ ip.size.toNat := by
  have hle := mt (Or.inl (b := off + n < off)) h
  rw [UInt32.lt_iff_toNat_lt] at hle
  omega

theorem Readable.toNat_amount {ip : Inode} {off n : UInt32} (h : Readable ip off n) :
    (amount ip off n).toNat = min n.toNat (ip.size.toNat - off.toNat) := by
  have hadd := h.toNat_add
  have hoff := h.off_le
  rw [amount]
  split
  · rename_i hlt
    rw [UInt32.lt_iff_toNat_lt, hadd] at hlt
    rw [UInt32.toNat_sub_of_le _ _ hoff]
    omega
  · rename_i hlt
    rw [UInt32.lt_iff_toNat_lt, hadd] at hlt
    omega

section Buffers
variable {ρ : Type} {D : Prog.Discipline Op Res ρ} {sz : Nat} (hD : ∀ o r, o.Inside sz → D.need o r) (hsz : sz < 2 ^ 32)
include hD

theorem Safe.step {β : Type} {o : Op} {f : Res o → M β} (ho : o.Inside sz) (hf : ∀ x, Safe D (f x)) :
    Safe D (Transfer.call o >>= f) := (Safe.call fun r => hD o r ho).bind hf

theorem pipereadWait_safe : ∀ rounds, Safe D (pipereadWait rounds)
  | 0 => .halt none
  | rounds + 1 => by
    rw [pipereadWait]
    refine .step hD ⟨⟩ fun p => ?_
    split
    · refine .step hD ⟨⟩ fun killed => ?_
      split
      · exact .step hD ⟨⟩ fun _ => .pure none
      · exact .step hD ⟨⟩ fun _ => pipereadWait_safe rounds
    · exact .pure _

theorem piperead_safe (rounds : Nat) {addr : UInt32} {n : Int} (h : addr.toNat + n.toNat ≤ sz) : Safe D (piperead rounds addr n) := by
  refine (pipereadWait_safe hD rounds).bind fun p => ?_
  cases p with
  | none => exact .pure _
  | some p =>
    refine .step hD ?_ fun _ => .step hD ⟨⟩ fun _ => .pure _
    exact Nat.le_trans (Nat.add_le_add_left (length_drain_le n.toNat p) _) h

theorem pipewriteWait_safe : ∀ rounds p, Safe D (pipewriteWait rounds p)
  | 0, _ => .halt none
  | rounds + 1, p => by
    rw [pipewriteWait]
    split
    · refine .step hD ⟨⟩ fun killed => .step hD ⟨⟩ fun _ => ?_
      split
      · exact .pure none
      · exact .step hD ⟨⟩ fun p => pipewriteWait_safe rounds p
    · exact .pure _

include hsz

theorem pipewriteFrom_safe (rounds : Nat) {addr : UInt32} : ∀ (left : Nat) {i : Nat} (p : Pipe), addr.toNat + i + left ≤ sz →
    Safe D (pipewriteFrom rounds addr left i p)
  | 0, i, p, _ => .pure _
  | left + 1, i, p, h => by
    rw [pipewriteFrom]
    refine (pipewriteWait_safe hD rounds p).bind fun p => ?_
    cases p with
    | none => exact .pure _
    | some p =>
      refine .step hD ?_ fun _ => pipewriteFrom_safe rounds left _ (by omega)
      rw [Op.Inside, toNat_add_ofNat (by omega)]
      omega

theorem pipewrite_safe (rounds : Nat) {addr : UInt32} {n : Int} (h : addr.toNat + n.toNat ≤ sz) : Safe D (pipewrite rounds addr n) := by
  refine .step hD ⟨⟩ fun p => (pipewriteFrom_safe hD hsz rounds _ p (by omega)).bind fun p => ?_
  cases p with
  | none => exact .pure _
  | some p => exact .step hD ⟨⟩ fun _ => .pure _

theorem consolereadFrom_safe {dst : UInt32} (target : Nat) : ∀ (n : Nat) {i : Nat}, dst.toNat + i + n ≤ sz →
    Safe D (consolereadFrom dst target n i)
  | 0, i, _ => .pure _
  | n + 1, i, h => by
    rw [consolereadFrom]
    refine .step hD ⟨⟩ fun c => ?_
    cases c with
    | none => exact .pure _
    | some c =>
      dsimp only
      split
      · split
        · exact .step hD ⟨⟩ fun _ => .pure _
        · exact .pure _
      · refine .step hD ?_ fun _ => ?_
        · rw [Op.Inside, toNat_add_ofNat (by omega), List.length_singleton]
          omega
        · split
          · exact .pure _
          · exact consolereadFrom_safe target n (by omega)

theorem consoleread_safe {dst : UInt32} {n : Int} (h : dst.toNat + n.toNat ≤ sz) : Safe D (consoleread dst n) :=
  .step hD ⟨⟩ fun _ => (consolereadFrom_safe hD hsz _ _ (by omega)).bind fun _ =>
    .step hD ⟨⟩ fun _ => .pure _

theorem consolewriteFrom_safe {buf : UInt32} : ∀ (left : Nat) {i : Nat}, buf.toNat + i + left ≤ sz → Safe D (consolewriteFrom buf left i)
  | 0, i, _ => .pure _
  | left + 1, i, h => by
    refine .step hD ?_ fun c => .step hD ⟨⟩ fun _ => consolewriteFrom_safe left (by omega)
    rw [Op.Inside, toNat_add_ofNat (by omega)]
    omega

theorem consolewrite_safe {buf : UInt32} {n : Int} (h : buf.toNat + n.toNat ≤ sz) : Safe D (consolewrite buf n) :=
  .step hD ⟨⟩ fun _ => (consolewriteFrom_safe hD hsz _ (by omega)).bind fun _ =>
    .step hD ⟨⟩ fun _ => .pure _

theorem writeiLoop_safe {src : UInt32} {n : Nat} (h : src.toNat + n ≤ sz) : ∀ left off tot, Safe D (writeiLoop src n left off tot)
  | 0, _, _ => .pure _
  | left + 1, off, tot => by
    rw [writeiLoop]
    split
    · split
      · exact .halt _
      · refine .step hD ⟨⟩ fun x => .step hD ?_ fun _ => .step hD ⟨⟩ fun _ => writeiLoop_safe h left _ _
        rw [Op.Inside, toNat_add_ofNat (by omega)]
        omega
    · exact .pure _

theorem writei_safe (ip : Inode) {src n : UInt32} (off : UInt32) (h : src.toNat + n.toNat ≤ sz) : Safe D (writei ip src off n) := by
  rw [writei]
  split
  · split
    · exact consolewrite_safe hD hsz (Nat.le_trans (Nat.add_le_add_left (toNat_int_le n) _) h)
    · exact .pure _
  · split
    · exact .pure _
    · split
      · exact .pure _
      · refine (writeiLoop_safe hD hsz h _ _ _).bind fun _ => ?_
        split
        · exact .step hD ⟨⟩ fun _ => .pure _
        · exact .pure _

theorem filewritePart_safe {addr : UInt32} {n i n1 : Int} (h : addr.toNat + n.toNat ≤ sz) (hi : 0 ≤ i) (hn1 : 0 ≤ n1) (hpart : n1 ≤ n - i) :
    Safe D (filewritePart addr i n1) := by
  have hsrc : (addr + Calls.uint i).toNat + (Calls.uint n1).toNat ≤ sz := by
    rw [UInt32.toNat_add, toNat_uint hi (by omega), toNat_uint hn1 (by omega)]
    omega
  refine .step hD ⟨⟩ fun _ => .step hD ⟨⟩ fun ip => .step hD ⟨⟩ fun off => (writei_safe hD hsz ip off hsrc).bind fun r => ?_
  split
  · exact .step hD ⟨⟩ fun _ => .step hD ⟨⟩ fun _ => .step hD ⟨⟩ fun _ => .pure _
  · exact .step hD ⟨⟩ fun _ => .step hD ⟨⟩ fun _ => .pure _

theorem filewrite_safe (rounds : Nat) (f : File) {addr n : UInt32} (h : addr.toNat + (int n).toNat ≤ sz) :
    Safe D (filewrite rounds f addr n) := by
  rw [filewrite]
  split
  · exact .pure _
  · split
    · exact pipewrite_safe hD hsz rounds h
    · exact fun r => Calls.filewriteFrom_keeps (fun _ _ r hi hn1 hpart _ => filewritePart_safe hD hsz h hi hn1 hpart r) _ (le_refl 0) trivial
    · exact .halt _

end Buffers

/-! ### `sys_read` and `sys_write` -/

/-- Anything may be found in the kernel. -/
def inside (sz : Nat) : Prog.Discipline Op Res Unit where
  need o _ := o.Inside sz
  gives _ _ _ := True
  after _ _ _ := ()

/-- `ilock` finds the inode `ip`, and the offset of the file is `off`. -/
def insideOf (sz : Nat) (ip : Inode) (off : UInt32) : Prog.Discipline Op Res Unit where
  need o _ := o.Inside sz
  gives
    | .ilock, _, x => x = ip
    | .off, _, x => x = off
    | _, _, _ => True
  after _ _ _ := ()

variable {sz : Nat} {m : Space} {ofile : Fin NOFILE → Option File} {esp : UInt32} {ip : Inode} {off : UInt32}

/-- `readi` of a file that is no device does not fit into the caller's memory only if the number of bytes is negative,
    so that it reads to the end of the file. -/
def ReadFits (sz : Nat) (m : Space) (ofile : Fin NOFILE → Option File) (esp : UInt32) (ip : Inode) (off : UInt32) : Prop :=
  ∀ f p n, bufferArgs sz m ofile esp = .ok (some (f, p, n)) → f.readable = true → f.type = .inode → ip.type.toNat ≠ T_DEV →
    int n < 0 → Readable ip off n → p.toNat + (ip.size.toNat - off.toNat) ≤ sz

theorem argptr_eq_some {n size p : UInt32} (h : argptr sz m esp n size = .ok (some p)) : p.toNat < sz ∧ (p + size).toNat ≤ sz := by
  rw [argptr] at h
  obtain ⟨i, -, h⟩ := bind_eq_ok.mp h
  cases i with
  | none => cases h
  | some i =>
    have h := Outcome.ok.inj h
    split at h
    · cases h
    · rename_i hin
      cases h
      omega

theorem bufferArgs_checked {f : File} {p n : UInt32} (h : bufferArgs sz m ofile esp = .ok (some (f, p, n))) :
    p.toNat < sz ∧ (p + n).toNat ≤ sz := by
  rw [bufferArgs] at h
  obtain ⟨f', -, h⟩ := bind_eq_ok.mp h
  cases f' with
  | none => cases h
  | some f' =>
    obtain ⟨n', -, h⟩ := bind_eq_ok.mp h
    cases n' with
    | none => cases h
    | some n' =>
      obtain ⟨p', hp, h⟩ := bind_eq_ok.mp h
      cases p' with
      | none => cases h
      | some p' =>
        cases h
        exact argptr_eq_some hp

theorem bufferArgs_fits {f : File} {p n : UInt32} (hsz : sz < KERNBASE) (h : bufferArgs sz m ofile esp = .ok (some (f, p, n))) :
    p.toNat + (int n).toNat ≤ sz := by
  obtain ⟨hp, hn⟩ := bufferArgs_checked h
  rw [UInt32.toNat_add] at hn
  simp only [KERNBASE] at hsz
  rw [int_eq]
  have := n.toNat_lt
  split <;> omega

theorem readiLoop_inside_iff {dst : UInt32} {n : Nat} (hsz : sz < 2 ^ 32) (left : Nat) {o tot : Nat} (htot : tot ≤ n)
    (hleft : n - tot ≤ left) (hmax : o + (n - tot) ≤ MAXFILE * BSIZE) (hin : dst.toNat + tot ≤ sz) :
    (readiLoop dst n left o tot).Keeps (insideOf sz ip off) () (fun _ _ => True) ↔ dst.toNat + n ≤ sz := by
  induction left generalizing o tot with
  | zero => exact iff_of_true trivial (by omega)
  | succ left ih =>
    rw [readiLoop]
    by_cases hlt : tot < n
    case neg =>
      rw [if_neg hlt]
      exact iff_of_true trivial (by omega)
    case pos =>
    have hblock : ¬MAXFILE ≤ o / BSIZE := by
      simp only [MAXFILE, NDIRECT, NINDIRECT, BSIZE] at *
      omega
    rw [if_pos hlt, if_neg hblock]
    obtain ⟨k, hk⟩ : ∃ k, k = min (n - tot) (BSIZE - o % BSIZE) := ⟨_, rfl⟩
    have hpos : 0 < k ∧ k ≤ n - tot := by
      have := Nat.mod_lt o (by decide : 0 < BSIZE)
      omega
    rw [← hk]
    have hstore : ∀ x : Block, Op.Inside sz (.store (dst + .ofNat tot) (x.getBytes (o % BSIZE) k)) ↔ dst.toNat + tot + k ≤ sz := by
      intro x
      rw [Op.Inside, toNat_add_ofNat (by omega), Bytes.Buffer.length_getBytes]
    constructor
    · rintro ⟨-, hbread⟩
      obtain ⟨hst, hrest⟩ := hbread .zero trivial
      have hfit := (hstore .zero).mp hst
      exact (ih (by omega) (by omega) (by omega) (by omega)).mp (hrest () trivial)
    · intro hend
      refine ⟨trivial, fun x _ => ⟨(hstore x).mpr (by omega), fun _ _ => ?_⟩⟩
      exact (ih (by omega) (by omega) (by omega) (by omega)).mpr hend

theorem readi_inside_iff {dst n : UInt32} (hsz : sz < 2 ^ 32) (hip : ip.size.toNat ≤ MAXFILE * BSIZE) (hdev : ip.type.toNat ≠ T_DEV)
    (hr : Readable ip off n) (hdst : dst.toNat ≤ sz) :
    (readi ip dst off n).Keeps (insideOf sz ip off) () (fun _ _ => True) ↔ dst.toNat + (amount ip off n).toNat ≤ sz := by
  have hlen := hr.toNat_amount
  have hoff := hr.off_le
  rw [readi, if_neg hdev, if_neg hr]
  refine Prog.keeps_bind.trans ?_
  exact readiLoop_inside_iff (n := (amount ip off n).toNat) hsz (amount ip off n).toNat (Nat.zero_le _) (by omega) (by omega) hdst

theorem sysWrite_safe (rounds : Nat) (hsz : sz < KERNBASE) : Safe (inside sz) (sysWrite rounds sz m ofile esp) := by
  rw [sysWrite]
  cases hargs : bufferArgs sz m ofile esp with
  | sleep => exact .halt none
  | panic msg => exact .halt (some msg)
  | ok args =>
    cases args with
    | none => exact .pure (-1)
    | some args => exact filewrite_safe (fun _ _ h => h) (Nat.lt_trans hsz (by decide)) rounds args.1 (bufferArgs_fits hsz hargs)

theorem fileread_file_iff (rounds : Nat) {f : File} {p n : UInt32} (hread : f.readable = true) (htype : f.type = .inode) :
    Safe (insideOf sz ip off) (fileread rounds f p n) ↔ (readi ip p off n).Keeps (insideOf sz ip off) () fun _ _ => True := by
  have hD : ∀ o r, o.Inside sz → (insideOf sz ip off).need o r := fun _ _ h => h
  rw [fileread, if_neg (by rw [hread]; exact Bool.noConfusion), htype]
  constructor
  · intro hsafe
    obtain ⟨-, hilock⟩ := hsafe ()
    obtain ⟨-, hoff⟩ := hilock ip rfl
    have hk : (readi ip p off n >>= _).Keeps (insideOf sz ip off) () fun _ _ => True := hoff off rfl
    exact (Prog.keeps_bind.mp hk).mono fun _ _ _ => trivial
  · rintro hk ⟨⟩
    refine ⟨trivial, fun ip' hip => ⟨trivial, fun off' hoff => ?_⟩⟩
    obtain rfl : ip' = ip := hip
    obtain rfl : off' = off := hoff
    change (readi ip' p off' n >>= _).Keeps (insideOf sz ip' off') () fun _ _ => True
    refine hk.bind fun r u _ => (?_ : Safe (insideOf sz ip' off') _) u
    split
    · exact .step hD ⟨⟩ fun _ => .step hD ⟨⟩ fun _ => .pure _
    · exact .step hD ⟨⟩ fun _ => .pure _

theorem fileread_inside_iff (rounds : Nat) {f : File} {p n : UInt32} (hsz : sz < KERNBASE) (hip : ip.size.toNat ≤ MAXFILE * BSIZE)
    (hp : p.toNat ≤ sz) (hfits : p.toNat + (int n).toNat ≤ sz) :
    Safe (insideOf sz ip off) (fileread rounds f p n) ↔ (f.readable = true → f.type = .inode → ip.type.toNat ≠ T_DEV → int n < 0 →
      Readable ip off n → p.toNat + (ip.size.toNat - off.toNat) ≤ sz) := by
  have hsz' : sz < 2 ^ 32 := Nat.lt_trans hsz (by decide)
  have hD : ∀ o r, o.Inside sz → (insideOf sz ip off).need o r := fun _ _ h => h
  have hn : (0 ≤ int n ∧ n.toNat = (int n).toNat) ∨ (int n < 0 ∧ ip.size.toNat < n.toNat) := by
    have : MAXFILE * BSIZE < 2 ^ 31 := by decide
    rcases Nat.lt_or_ge n.toNat (2 ^ 31) with hlt | hge
    · rw [int_eq, if_pos hlt]
      exact .inl ⟨Int.natCast_nonneg _, (Int.toNat_natCast _).symm⟩
    · have := n.toNat_lt
      exact .inr ⟨by rw [int_eq, if_neg (Nat.not_lt_of_le hge)]; omega, by omega⟩
  by_cases hread : f.readable = false
  · rw [fileread, if_pos hread, hread]
    exact iff_of_true (.pure _) nofun
  cases htype : f.type with
  | none =>
    rw [fileread, if_neg hread, htype]
    exact iff_of_true (.halt _) fun _ => nofun
  | pipe =>
    rw [fileread, if_neg hread, htype]
    exact iff_of_true (piperead_safe hD rounds hfits) fun _ => nofun
  | inode =>
    rw [fileread_file_iff rounds (by simpa using hread) htype]
    -- a device, a bad offset and a number that is not negative are harmless
    by_cases hdev : ip.type.toNat = T_DEV
    · refine iff_of_true ?_ fun _ _ h => absurd hdev h
      rw [readi, if_pos hdev]
      split
      · exact consoleread_safe hD hsz' hfits ()
      · exact trivial
    by_cases hr : Readable ip off n
    case neg =>
      refine iff_of_true ?_ fun _ _ _ _ h => absurd h hr
      rw [readi, if_neg hdev, if_pos (not_not.mp hr)]
      exact trivial
    case pos =>
    rw [readi_inside_iff hsz' hip hdev hr hp, hr.toNat_amount]
    have hoff := hr.off_le
    rcases hn with ⟨hpos, hn⟩ | ⟨hneg, hlt⟩
    · exact iff_of_true (by omega) fun _ _ _ hneg _ => absurd hneg (not_lt.mpr hpos)
    · rw [Nat.min_eq_right (by omega)]
      exact ⟨fun h _ _ _ _ _ => h, fun h => h (by simpa using hread) rfl hdev hneg hr⟩

theorem sysRead_inside_iff (rounds : Nat) (hsz : sz < KERNBASE) (hip : ip.size.toNat ≤ MAXFILE * BSIZE) :
    Safe (insideOf sz ip off) (sysRead rounds sz m ofile esp) ↔ ReadFits sz m ofile esp ip off := by
  rw [sysRead]
  cases hargs : bufferArgs sz m ofile esp with
  | sleep => exact iff_of_true (.halt none) fun f p n h => nomatch hargs.symm.trans h
  | panic msg => exact iff_of_true (.halt (some msg)) fun f p n h => nomatch hargs.symm.trans h
  | ok args =>
    cases args with
    | none => exact iff_of_true (.pure (-1)) fun f p n h => nomatch hargs.symm.trans h
    | some args =>
      obtain ⟨f, p, n⟩ := args
      refine (fileread_inside_iff rounds hsz hip (Nat.le_of_lt (bufferArgs_checked hargs).1) (bufferArgs_fits hsz hargs)).trans
        ⟨fun h f' p' n' h' => ?_, fun h => h f p n hargs⟩
      obtain ⟨⟩ := hargs.symm.trans h'
      exact h

/-- Every byte that is read or stored through the buffer pointer is the process's own, unless a file is read with a
    negative number of bytes. -/
theorem buffers_inside_iff (rounds : Nat) (hsz : sz < KERNBASE) (hip : ip.size.toNat ≤ MAXFILE * BSIZE) :
    Safe (inside sz) (sysWrite rounds sz m ofile esp) ∧
    (Safe (insideOf sz ip off) (sysRead rounds sz m ofile esp) ↔ ReadFits sz m ofile esp ip off) :=
  ⟨sysWrite_safe rounds hsz, sysRead_inside_iff rounds hsz hip⟩

/-- A page of memory that begins with these words. -/
def stackOf (ws : List UInt32) : Space := fun a =>
  if a < PGSIZE then some ⟨(ws.flatMap fun w => Bytes.toLe 4 w.toNat).getD a 0, true⟩ else none

def oneBlock : Inode where
  dev := 1
  inum := 2
  ref := 1
  busy := false
  valid := true
  type := 2
  major := 0
  minor := 0
  nlink := 1
  size := 512
  addrs _ := 0

def plainFile : File := { type := .inode, ref := 1, readable := true }

theorem read_sixteen_bytes : Safe (insideOf PGSIZE oneBlock 0) (sysRead 1 PGSIZE (stackOf [0, 0, 64, 16]) (fun _ => some plainFile) 0) ∧
    Safe (inside PGSIZE) (sysWrite 1 PGSIZE (stackOf [0, 0, 64, 16]) (fun _ => some plainFile) 0) := by
  suffices hfits : ReadFits PGSIZE (stackOf [0, 0, 64, 16]) (fun _ => some plainFile) 0 oneBlock 0 by
    have hboth : _ ∧ (_ ↔ ReadFits PGSIZE (stackOf [0, 0, 64, 16]) (fun _ => some plainFile) 0 oneBlock 0) :=
      buffers_inside_iff 1 (by decide) (by decide)
    exact ⟨hboth.2.mpr hfits, hboth.1⟩
  intro f p n hargs _ _ _ hneg
  have hok : bufferArgs PGSIZE (stackOf [0, 0, 64, 16]) (fun _ => some plainFile) 0 = .ok (some (plainFile, 64, 16)) := rfl
  rw [hok] at hargs
  cases hargs
  exact absurd hneg (by decide)

/-- `read` of -1 bytes passes the checks near the end of the process's memory, and stores a whole block there. -/
theorem read_minus_one : oneBlock.size.toNat ≤ MAXFILE * BSIZE ∧
    ¬Safe (insideOf PGSIZE oneBlock 0) (sysRead 1 PGSIZE (stackOf [0, 0, 4090, 0xffffffff]) (fun _ => some plainFile) 0) := by
  refine ⟨by decide, fun hsafe => ?_⟩
  have hok : bufferArgs PGSIZE (stackOf [0, 0, 4090, 0xffffffff]) (fun _ => some plainFile) 0 =
    .ok (some (plainFile, 4090, 0xffffffff)) := rfl
  have := (sysRead_inside_iff 1 (by decide) (by decide)).mp hsafe _ _ _ hok rfl rfl (by decide) (by decide) (by unfold Readable; decide)
  exact absurd this (by decide)

/-! ### `sys_wait` and `sys_wait_stat` -/

/-- `ptable` is as `tables` tells, each time that the lock is taken; the operations all have `P`. -/
def amid (tables : Nat → Ptable) (P : Op → Prop) : Prog.Discipline Op Res Nat where
  need o _ := P o
  gives
    | .ptable, k, s => s = tables k
    | _, _, _ => True
  after
    | .ptable, _, k => k + 1
    | _, _, k => k

def Sleeps (s : Ptable) (i : ProcIdx) : Prop := s.zombieChild i = none ∧ s.havekids i = true ∧ (s.slot i).killed = false

/-- A dead child is found from round `k` on. -/
def Reaps (tables : Nat → Ptable) (i : ProcIdx) (k rounds : Nat) : Prop :=
  ∃ j < rounds, (tables (k + j)).zombieChild i ≠ none ∧ ∀ l < j, Sleeps (tables (k + l)) i

variable {tables : Nat → Ptable} {P : Op → Prop} {i : ProcIdx} {c : Ptable.WaitCall} {tell : Ptable.Slot → M Unit}

theorem reaps_succ_of_sleeps {k rounds : Nat} (h : Sleeps (tables k) i) : Reaps tables i k (rounds + 1) ↔ Reaps tables i (k + 1) rounds := by
  constructor
  · rintro ⟨j, hj, hz, hl⟩
    cases j with
    | zero => exact absurd h.1 hz
    | succ j =>
      refine ⟨j, by omega, ?_, fun l hlt => ?_⟩
      · rwa [Nat.add_right_comm]
      · rw [Nat.add_right_comm]
        exact hl (l + 1) (by omega)
  · rintro ⟨j, hj, hz, hl⟩
    refine ⟨j + 1, by omega, ?_, fun l hlt => ?_⟩
    · rwa [Nat.add_right_comm] at hz
    · cases l with
      | zero => exact h
      | succ l =>
        have := hl l (by omega)
        rwa [Nat.add_right_comm] at this

/-- If `told` says when the stores for a child have `P`, the loop has `P` exactly if that is so or no child is found. -/
theorem scanFrom_keeps_iff {told : Prop} (hP : P .ptable ∧ ∀ p, P (.reap p c))
    (htell : ∀ p k, (tell p).Keeps (amid tables P) k (fun _ _ => True) ↔ told) (rounds : Nat) {k : Nat} :
    (scanFrom i c tell rounds).Keeps (amid tables P) k (fun _ _ => True) ↔ (Reaps tables i k rounds → told) := by
  induction rounds generalizing k with
  | zero => exact iff_of_true trivial fun ⟨j, hj, _⟩ => absurd hj (Nat.not_lt_zero j)
  | succ rounds ih =>
    rw [scanFrom]
    have hfirst : ∀ {f : Ptable → M Int}, (call .ptable >>= f).Keeps (amid tables P) k (fun _ _ => True) ↔
        (f (tables k)).Keeps (amid tables P) (k + 1) fun _ _ => True :=
      ⟨fun h => h.2 (tables k) rfl, fun h => ⟨hP.1, fun s hs => hs ▸ h⟩⟩
    rw [hfirst]
    cases hz : (tables k).zombieChild i with
    | some p =>
      have hreaps : Reaps tables i k (rounds + 1) := ⟨0, by omega, by rw [Nat.add_zero, hz]; exact Option.some_ne_none p, fun l hl => absurd hl (Nat.not_lt_zero l)⟩
      dsimp only
      rw [Prog.keeps_bind, imp_iff_right hreaps, ← htell ((tables k).slot p) (k + 1)]
      exact ⟨fun h => h.mono fun _ _ _ => trivial, fun h => h.mono fun _ _ _ => ⟨hP.2 p, fun _ _ => trivial⟩⟩
    | none =>
      dsimp only
      by_cases hstop : (tables k).havekids i = false ∨ ((tables k).slot i).killed = true
      · rw [if_pos hstop]
        refine iff_of_true trivial ?_
        rintro ⟨j, hj, hne, hl⟩
        cases j with
        | zero => exact absurd hz hne
        | succ j =>
          obtain ⟨-, hkids, hkilled⟩ := hl 0 (by omega)
          rw [Nat.add_zero] at hkids hkilled
          rw [hkids, hkilled] at hstop
          cases hstop <;> contradiction
      · rw [if_neg hstop, ih, reaps_succ_of_sleeps ⟨hz, by simpa using mt Or.inl hstop, by simpa using mt Or.inr hstop⟩]

/-- Stores are in the memory to which one of these arguments points, for which `argptr` has checked a word. -/
def Op.Verified (sz : Nat) (m : Space) (esp : UInt32) (args : List UInt32) : Op → Prop
  | .store addr bs => ∃ n ∈ args, ∃ p, argptr sz m esp n 4 = .ok (some p) ∧ p.toNat ≤ addr.toNat ∧ addr.toNat + bs.length ≤ p.toNat + 4
  | _ => True

theorem storeWord_bind_keeps {β : Type} {f : Unit → M β} {addr x : UInt32} {k : Nat} {post : β → Nat → Prop} :
    (storeWord addr x >>= f).Keeps (amid tables P) k post ↔ P (.store addr (Bytes.toLe 4 x.toNat)) ∧ (f ()).Keeps (amid tables P) k post :=
  ⟨fun h => ⟨h.1, h.2 () trivial⟩, fun h => ⟨h.1, fun _ _ => h.2⟩⟩

theorem storeWord_keeps {addr x : UInt32} {k : Nat} : (storeWord addr x).Keeps (amid tables P) k (fun _ _ => True) ↔
    P (.store addr (Bytes.toLe 4 x.toNat)) := ⟨fun h => h.1, fun h => ⟨h, fun _ _ => trivial⟩⟩

def reportWords (status perf : UInt32) : List UInt32 := [status, perf + 8, perf + 12, perf + 16, perf + 4, perf]

/-- If `P` only asks where a store is, `wait_stat` has it exactly if its words have it or no child is found. -/
theorem waitStat_keeps_iff {Q : Nat → Nat → Prop} (hP : P .ptable ∧ ∀ p, P (.reap p .waitStat))
    (hQ : ∀ addr bs, P (.store addr bs) ↔ Q addr.toNat bs.length) (rounds : Nat) {status perf : UInt32} :
    (waitStat rounds i status perf).Keeps (amid tables P) 0 (fun _ _ => True) ↔
      (Reaps tables i 0 rounds → ∀ a ∈ reportWords status perf, Q a.toNat 4) := by
  refine scanFrom_keeps_iff hP (fun p k => ?_) rounds
  simp only [storeWord_bind_keeps, storeWord_keeps, hQ, Bytes.length_toLe, reportWords, List.forall_mem_cons, List.not_mem_nil,
    false_imp_iff, implies_true, and_true]

theorem waitStatArgs_checked {status perf : UInt32} (h : waitStatArgs sz m esp = .ok (some (status, perf))) :
    argptr sz m esp 0 4 = .ok (some status) ∧ argptr sz m esp 1 4 = .ok (some perf) := by
  rw [waitStatArgs] at h
  obtain ⟨a, ha, h⟩ := bind_eq_ok.mp h
  cases a with
  | none => cases h
  | some a =>
    obtain ⟨b, hb, h⟩ := bind_eq_ok.mp h
    cases b with
    | none => cases h
    | some b =>
      cases h
      exact ⟨ha, hb⟩

theorem argptr_word {n p : UInt32} (hsz : sz < KERNBASE) (h : argptr sz m esp n 4 = .ok (some p)) : p.toNat + 4 ≤ sz := by
  obtain ⟨hp, hend⟩ := argptr_eq_some h
  rw [UInt32.toNat_add] at hend
  simp only [KERNBASE] at hsz
  have : (4 : UInt32).toNat = 4 := rfl
  omega

theorem sysWaitStat_keeps_iff (rounds : Nat) (tables : Nat → Ptable) (i : ProcIdx) :
    (sysWaitStat rounds i sz m esp).Keeps (amid tables P) 0 (fun _ _ => True) ↔
      ∀ status perf, waitStatArgs sz m esp = .ok (some (status, perf)) →
        (waitStat rounds i status perf).Keeps (amid tables P) 0 fun _ _ => True := by
  rw [sysWaitStat]
  cases hargs : waitStatArgs sz m esp with
  | sleep => exact iff_of_true trivial nofun
  | panic msg => exact iff_of_true trivial nofun
  | ok args =>
    cases args with
    | none => exact iff_of_true trivial nofun
    | some args => exact ⟨fun h status perf heq => by cases heq; exact h, fun h => h args.1 args.2 rfl⟩

theorem sysWait_keeps (rounds : Nat) (tables : Nat → Ptable) (i : ProcIdx) (hsz : sz < KERNBASE) :
    (sysWait rounds i sz m esp).Keeps (amid tables fun o => o.Verified sz m esp [0] ∧ o.Inside sz) 0 fun _ _ => True := by
  rw [sysWait]
  cases harg : argptr sz m esp 0 4 with
  | sleep | panic msg => trivial
  | ok arg =>
    cases arg with
    | none => trivial
    | some status =>
      have htell : ∀ (p : Ptable.Slot) (k : Nat), (if status ≠ 0 then storeWord status p.status else pure ()).Keeps
          (amid tables fun o => o.Verified sz m esp [0] ∧ o.Inside sz) k (fun _ _ => True) ↔ True := fun p k => by
        refine iff_of_true ?_ trivial
        split
        · refine storeWord_keeps.mpr ⟨⟨0, List.mem_singleton_self 0, status, harg, le_refl _, ?_⟩, ?_⟩
          · rw [Bytes.length_toLe]
          · rw [Op.Inside, Bytes.length_toLe]
            exact argptr_word hsz harg
        · exact trivial
      exact (scanFrom_keeps_iff ⟨⟨trivial, trivial⟩, fun _ => ⟨trivial, trivial⟩⟩ htell rounds).mpr fun _ => trivial

theorem toNat_report {perf : UInt32} {k : Nat} (hsz : sz < KERNBASE) (hp : perf.toNat + 4 ≤ sz) (hk : k ≤ 16) :
    (perf + .ofNat k).toNat = perf.toNat + k :=
  toNat_add_ofNat (by
    simp only [KERNBASE] at hsz
    omega)

/-- The words of the report that lie behind the first one of `struct perf` are not all checked: one pointer does not do
    for two of them. -/
theorem not_verified_report {status perf : UInt32} (hsz : sz < KERNBASE) (hstatus : argptr sz m esp 0 4 = .ok (some status))
    (hperf : argptr sz m esp 1 4 = .ok (some perf)) :
    ¬∀ a ∈ reportWords status perf, ∃ n ∈ [(0 : UInt32), 1], ∃ p, argptr sz m esp n 4 = .ok (some p) ∧ p.toNat ≤ a.toNat ∧
      a.toNat + 4 ≤ p.toNat + 4 := by
  intro hall
  have hword := argptr_word hsz hperf
  have hlies : ∀ k, 4 ≤ k → k ≤ 16 → perf + .ofNat k ∈ reportWords status perf → status.toNat = perf.toNat + k := by
    intro k hlo hhi hmem
    obtain ⟨n, hn, p, hp, hle, hend⟩ := hall _ hmem
    rw [toNat_report hsz hword hhi] at hle hend
    rcases List.mem_cons.mp hn with rfl | hn
    · obtain ⟨⟩ := hstatus.symm.trans hp
      omega
    · obtain rfl := List.mem_singleton.mp hn
      obtain ⟨⟩ := hperf.symm.trans hp
      omega
  have h8 := hlies 8 (by decide) (by decide) (List.mem_cons_of_mem _ List.mem_cons_self)
  have h12 := hlies 12 (by decide) (by decide) (List.mem_cons_of_mem _ (List.mem_cons_of_mem _ List.mem_cons_self))
  omega

theorem sysWaitStat_verified_iff (rounds : Nat) (tables : Nat → Ptable) (i : ProcIdx) (hsz : sz < KERNBASE) :
    (sysWaitStat rounds i sz m esp).Keeps (amid tables (Op.Verified sz m esp [0, 1])) 0 (fun _ _ => True) ↔
      ∀ status perf, waitStatArgs sz m esp = .ok (some (status, perf)) → ¬Reaps tables i 0 rounds := by
  rw [sysWaitStat_keeps_iff]
  refine forall_congr' fun status => forall_congr' fun perf => imp_congr_right fun hargs => ?_
  obtain ⟨hstatus, hperf⟩ := waitStatArgs_checked hargs
  rw [waitStat_keeps_iff (Q := fun a k => ∃ n ∈ [(0 : UInt32), 1], ∃ p, argptr sz m esp n 4 = .ok (some p) ∧ p.toNat ≤ a ∧
    a + k ≤ p.toNat + 4) ⟨trivial, fun _ => trivial⟩ (fun _ _ => Iff.rfl)]
  exact imp_congr_right fun _ => iff_of_false (not_verified_report hsz hstatus hperf) id

theorem sysWaitStat_inside_iff (rounds : Nat) (tables : Nat → Ptable) (i : ProcIdx) (hsz : sz < KERNBASE) :
    (sysWaitStat rounds i sz m esp).Keeps (amid tables (Op.Inside sz)) 0 (fun _ _ => True) ↔
      ∀ status perf, waitStatArgs sz m esp = .ok (some (status, perf)) → Reaps tables i 0 rounds → perf.toNat + 20 ≤ sz := by
  rw [sysWaitStat_keeps_iff]
  refine forall_congr' fun status => forall_congr' fun perf => imp_congr_right fun hargs => ?_
  obtain ⟨hstatus, hperf⟩ := waitStatArgs_checked hargs
  have hs := argptr_word hsz hstatus
  have hp := argptr_word hsz hperf
  rw [waitStat_keeps_iff (Q := fun a k => a + k ≤ sz) ⟨trivial, fun _ => trivial⟩ (fun _ _ => Iff.rfl)]
  refine imp_congr_right fun _ => ?_
  have h4 : (perf + 4).toNat = perf.toNat + 4 := toNat_report hsz hp (by decide)
  have h8 : (perf + 8).toNat = perf.toNat + 8 := toNat_report hsz hp (by decide)
  have h12 : (perf + 12).toNat = perf.toNat + 12 := toNat_report hsz hp (by decide)
  have h16 : (perf + 16).toNat = perf.toNat + 16 := toNat_report hsz hp (by decide)
  simp only [reportWords, List.forall_mem_cons, List.not_mem_nil, false_imp_iff, implies_true, and_true, h4, h8, h12, h16]
  omega

/-- What `wait` stores is checked and is the process's own memory. What `wait_stat` stores is not checked as soon as there
    is something to store; it is the process's own memory exactly if the whole `struct perf` is. -/
theorem waits_checked_iff (rounds : Nat) (tables : Nat → Ptable) (i : ProcIdx) (hsz : sz < KERNBASE) :
    (sysWait rounds i sz m esp).Keeps (amid tables fun o => o.Verified sz m esp [0] ∧ o.Inside sz) 0 (fun _ _ => True) ∧
    ((sysWaitStat rounds i sz m esp).Keeps (amid tables (Op.Verified sz m esp [0, 1])) 0 (fun _ _ => True) ↔
      ∀ status perf, waitStatArgs sz m esp = .ok (some (status, perf)) → ¬Reaps tables i 0 rounds) ∧
    ((sysWaitStat rounds i sz m esp).Keeps (amid tables (Op.Inside sz)) 0 (fun _ _ => True) ↔
      ∀ status perf, waitStatArgs sz m esp = .ok (some (status, perf)) → Reaps tables i 0 rounds → perf.toNat + 20 ≤ sz) :=
  ⟨sysWait_keeps rounds tables i hsz, sysWaitStat_verified_iff rounds tables i hsz, sysWaitStat_inside_iff rounds tables i hsz⟩

/-- A process and its child, in this state. -/
def family (child : ProcState) : Ptable where
  slot i := if i = 0 then { state := .running, pid := 1 } else if i = 1 then { state := child, pid := 2, parent := some 0 } else {}
  initproc := 0
  nextpid := 3
  ticks := 0
  currentPolicy := 1
  beyond := 0
  births := 2

/-- The pointers are accepted, and the child is alive. -/
theorem wait_stat_child_alive : waitStatArgs PGSIZE (stackOf [0, 4000, 4092]) 0 = .ok (some (4000, 4092)) ∧
    (sysWaitStat 1 0 PGSIZE (stackOf [0, 4000, 4092]) 0).Keeps
      (amid (fun _ => family .running) (Op.Verified PGSIZE (stackOf [0, 4000, 4092]) 0 [0, 1])) 0 fun _ _ => True := by
  refine ⟨rfl, (waits_checked_iff 1 _ 0 (by decide)).2.1.mpr fun status perf _ hreaps => ?_⟩
  obtain ⟨j, hj, hz, -⟩ := hreaps
  exact hz rfl

/-- The pointer to `struct perf` points to the last word of the process, and the rest is stored behind it. -/
theorem wait_stat_last_word :
    ¬(sysWaitStat 1 0 PGSIZE (stackOf [0, 4000, 4092]) 0).Keeps
      (amid (fun _ => family .zombie) (Op.Verified PGSIZE (stackOf [0, 4000, 4092]) 0 [0, 1])) 0 (fun _ _ => True) ∧
    ¬(sysWaitStat 1 0 PGSIZE (stackOf [0, 4000, 4092]) 0).Keeps (amid (fun _ => family .zombie) (Op.Inside PGSIZE)) 0 fun _ _ => True := by
  have hargs : waitStatArgs PGSIZE (stackOf [0, 4000, 4092]) 0 = .ok (some (4000, 4092)) := rfl
  have hreaps : Reaps (fun _ => family .zombie) 0 0 1 := ⟨0, by decide, nofun, fun l hl => absurd hl (Nat.not_lt_zero l)⟩
  constructor
  · intro h
    exact (sysWaitStat_verified_iff 1 _ 0 (by decide)).mp h _ _ hargs hreaps
  · intro h
    exact absurd ((sysWaitStat_inside_iff 1 _ 0 (by decide)).mp h _ _ hargs hreaps) (by decide)

end Transfer

/-! ### Signals -/

namespace Proc

/-- What `do_signal` stores is the process's own memory. -/
def SignalsInside (p : Proc) : Prop := ∀ s ∈ p.doSignal.2, s.1.toNat + 4 ≤ p.sz

/-- `do_signal` calls a handler of the process. -/
def Handles (p : Proc) : Prop :=
  (p.tf.cs &&& 3 = DPL_USER ∧ p.pending ≠ 0 ∧ p.handlingSignal = false) ∧ ∃ n, firstPending p.pending = some n ∧ p.handlers n ≠ SIG_DFL

theorem doSignal_stores_of_handles {p : Proc} (h : p.Handles) :
    ∃ n, p.doSignal.2 = [(p.tf.esp - 4, UInt32.ofNat n), (p.tf.esp - 4 - 4, p.retAdd)] := by
  obtain ⟨hen, n, hn, hdfl⟩ := h
  refine ⟨n.val, ?_⟩
  rw [doSignal, if_pos hen]
  simp only [hn, if_neg hdfl]
  rfl

theorem doSignal_stores_of_not {p : Proc} (h : ¬p.Handles) : p.doSignal.2 = [] := by
  rw [doSignal]
  split
  · rename_i hen
    dsimp only
    split
    · rfl
    · rename_i n hn
      rw [if_pos (by_contra fun hdfl => h ⟨hen, n, hn, hdfl⟩)]
  · rfl

/-- The stores of `do_signal` lie in the process exactly if it calls no handler or the stack pointer does. -/
theorem doSignal_inside_iff {p : Proc} (hsz : p.sz < 2 ^ 32) :
    p.SignalsInside ↔ (p.Handles → 8 ≤ p.tf.esp.toNat ∧ p.tf.esp.toNat ≤ p.sz) := by
  by_cases h : p.Handles
  · obtain ⟨n, hs⟩ := doSignal_stores_of_handles h
    have hesp := p.tf.esp.toNat_lt
    have hfirst : (p.tf.esp - 4).toNat = (2 ^ 32 - 4 + p.tf.esp.toNat) % 2 ^ 32 := UInt32.toNat_sub ..
    have hsecond : (p.tf.esp - 4 - 4).toNat = (2 ^ 32 - 4 + (p.tf.esp - 4).toNat) % 2 ^ 32 := UInt32.toNat_sub ..
    rw [SignalsInside, hs, imp_iff_right h, List.forall_mem_cons, List.forall_mem_singleton]
    dsimp only
    omega
  · rw [SignalsInside, doSignal_stores_of_not h]
    exact iff_of_true (fun s hs => absurd hs List.not_mem_nil) fun hh => absurd hh h

/-- A process that has a handler for the first signal, which is pending. -/
def signalled (esp : UInt32) : Proc where
  sz := PGSIZE
  pending := 1
  handlers _ := 0x100
  tf := { cs := USER_CS, ds := USER_DS, es := USER_DS, ss := USER_DS, eflags := FL_IF, esp := esp }

theorem signal_on_own_stack : UserFrame (signalled 0x800).tf ∧ (signalled 0x800).SignalsInside :=
  ⟨by decide, (doSignal_inside_iff (by decide)).mpr fun _ => by decide⟩

/-- With a stack pointer into the kernel, the number of the signal and an address are stored there. -/
theorem signal_into_kernel : UserFrame (signalled 0x80100008).tf ∧ ¬(signalled 0x80100008).SignalsInside := by
  refine ⟨by decide, fun h => ?_⟩
  have hstores : (signalled 0x80100008).doSignal.2 = [(0x80100004, 0), (0x80100000, 0)] := rfl
  exact absurd (h (0x80100004, 0) (hstores ▸ List.mem_cons_self)) (by decide)

end Proc
end Xv6
