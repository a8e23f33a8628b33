import Xv6.Fork
import Xv6.Theorems.Copyuvm

/-! What a `fork` that fails leaves behind. It asks for pages in a fixed order: the kernel stack, the page directory, the
    page tables of the kernel, then for each page of the parent a page, and after it a page table if the page is the
    first that needs it. -/

namespace Xv6
open Function (update update_idem update_of_ne update_self)
open Outcome (ok_bind)
open Vm Os

namespace Os

@[simp] theorem proc_setProc_self (os : Os) (p : ProcIdx) (proc : Proc) : (os.setProc p proc).proc p = proc :=
  update_self ..

theorem proc_setProc_of_ne (os : Os) {p q : ProcIdx} (h : q ≠ p) (proc : Proc) : (os.setProc p proc).proc q = os.proc q :=
  update_of_ne h ..

@[simp] theorem setProc_setProc (os : Os) (p : ProcIdx) (a b : Proc) : (os.setProc p a).setProc p b = os.setProc p b := by
  simp only [Os.setProc, update_idem]

end Os

namespace Forkable
variable {k k' : Forkable} {i np : ProcIdx} {d : Pgdir} {sz v n : Nat}

/-! ### Which call of `kalloc` fails -/

/-- The calls of `kalloc` before the one for the copy of page `v`. -/
def callsBefore (v : Nat) : Nat := 66 + v + (v + 1023) / 1024

/-- `copyuvm` gets to page `v` if there is memory. -/
def Gets (d : Pgdir) (sz v : Nat) : Prop := v * PGSIZE < sz ∧ ∀ u ≤ v, d.pte u ≠ none

/-- With `n` free pages, there is none for the stack, for the directory, or for a page of the child. -/
def PageFails (d : Pgdir) (sz n : Nat) : Prop := n < 2 ∨ ∃ v, Gets d sz v ∧ n = callsBefore v

/-- With `n` free pages, there is none for a page table. -/
def TableFails (d : Pgdir) (sz n : Nat) : Prop := (2 ≤ n ∧ n < 66) ∨ ∃ v, Gets d sz v ∧ v % NPTENTRIES = 0 ∧ n = callsBefore v + 1

def CopyFits (d : Pgdir) (sz n : Nat) : Prop :=
  (∀ v, v * PGSIZE < sz → d.pte v ≠ none) ∧ callsBefore (pgroundup sz / PGSIZE) ≤ n

theorem callsBefore_lt {u : Nat} (h : u < v) : callsBefore u < callsBefore v := by
  simp only [callsBefore]
  omega

theorem callsBefore_table {u : Nat} (h : u < v) (hu : u % NPTENTRIES = 0) : callsBefore u + 1 < callsBefore v := by
  simp only [callsBefore, NPTENTRIES] at *
  omega

theorem callsBefore_ge (v : Nat) : 66 ≤ callsBefore v := by
  simp only [callsBefore]
  omega

theorem PageFails.not_table (h : PageFails d sz n) : ¬TableFails d sz n := by
  rintro (htab | ⟨w, -, hw, htab⟩) <;> rcases h with h | ⟨v, -, h⟩
  · omega
  · have := callsBefore_ge v
    omega
  · have := callsBefore_ge w
    omega
  · rcases Nat.lt_trichotomy v w with hlt | rfl | hlt
    · have := callsBefore_lt hlt
      omega
    · omega
    · have := callsBefore_table hlt hw
      omega

theorem CopyFits.not_page (h : CopyFits d sz n) (hsz : sz < KERNBASE) : ¬PageFails d sz n := by
  rintro (hpage | ⟨v, hv, hpage⟩)
  · have := callsBefore_ge (pgroundup sz / PGSIZE)
    have := h.2
    omega
  · have := callsBefore_lt (lt_pgroundup_div (Nat.le_of_lt hsz) hv.1)
    have := h.2
    omega

theorem CopyFits.not_table (h : CopyFits d sz n) (hsz : sz < KERNBASE) : ¬TableFails d sz n := by
  rintro (htab | ⟨v, hv, hmod, htab⟩)
  · have := callsBefore_ge (pgroundup sz / PGSIZE)
    have := h.2
    omega
  · have := callsBefore_table (lt_pgroundup_div (Nat.le_of_lt hsz) hv.1) hmod
    have := h.2
    omega

/-! ### The states that `fork` meets -/

/-- Process `i` can call `fork`: it runs with an address space of its own and a directory, and no page is used twice. -/
structure Ready (k : Forkable) (i : ProcIdx) (d : Pgdir) : Prop where
  used : (k.os.proc i).state ≠ .unused
  pgdir : (k.os.proc i).pgdir = some d
  sz : (k.os.proc i).sz < KERNBASE
  kend : 0 < k.vm.kend
  linked : Linked k.vm
  valid : ∀ p ∈ k.vm.free, Valid k.vm p
  apart : Apart k.vm d
  backed : d.Backed k.vm
  files : ∀ fd f, (k.os.proc i).ofile fd = some f → 1 ≤ (k.os.file f).ref
  cwd : (k.os.proc i).cwd ≠ none

/-- Nothing is left of a `fork`, in what other parts of the kernel look at. -/
structure Restored (k k' : Forkable) : Prop where
  free : k'.vm.free.Perm k.vm.free
  state : ∀ q, (k'.os.proc q).state = (k.os.proc q).state
  parent : ∀ q, (k'.os.proc q).parent = (k.os.proc q).parent
  killed : ∀ q, (k'.os.proc q).killed = (k.os.proc q).killed
  pending : ∀ q, (k'.os.proc q).pending = (k.os.proc q).pending
  ofile : ∀ q, (k'.os.proc q).ofile = (k.os.proc q).ofile
  cwd : ∀ q, (k'.os.proc q).cwd = (k.os.proc q).cwd
  file : ∀ f, (k'.os.file f).ref = (k.os.file f).ref
  inode : ∀ x, (k'.os.fs.inode x).ref = (k.os.fs.inode x).ref

def dropped (k : Forkable) (np : ProcIdx) (pgdir : Option Pgdir) : Proc :=
  { ({ k.os.proc np with state := .unused, pid := k.nextpid, pgdir := pgdir } : Proc).setDefaultHandlers with state := .unused }

theorem unused_state (h : k.unused = some np) : (k.os.proc np).state = .unused := by
  simpa using List.find?_some h

/-- How a `fork` that found a slot ends. -/
inductive Ends (k : Forkable) (i : ProcIdx) (d : Pgdir) (np : ProcIdx) : Prop
  | noPage (h : PageFails d (k.os.proc i).sz k.vm.free.length) (k' : Forkable) (hr : k.fork i = .ok (-1, k'))
      (hfree : k'.vm.free.Perm k.vm.free) (pgdir : Option Pgdir) (hos : k'.os = k.os.setProc np (k.dropped np pgdir))
  | noTable (h : TableFails d (k.os.proc i).sz k.vm.free.length) (k' : Forkable) (hr : k.fork i = .ok (-1, k'))
      (hfree : k'.vm.free.length < k.vm.free.length)
  | done (h : CopyFits d (k.os.proc i).sz k.vm.free.length) (k' : Forkable) (hr : k.fork i = .ok (k.nextpid.toInt32.toInt, k'))
      (hstate : (k'.os.proc np).state = .runnable)
  | stuck (hp : ¬PageFails d (k.os.proc i).sz k.vm.free.length) (ht : ¬TableFails d (k.os.proc i).sz k.vm.free.length)
      (hc : ¬CopyFits d (k.os.proc i).sz k.vm.free.length) (msg : String) (hr : k.fork i = .panic msg)

def embryo (k : Forkable) (np : ProcIdx) : Proc := ({ k.os.proc np with state := .embryo, pid := k.nextpid } : Proc).setDefaultHandlers

theorem ne_of_unused (h : Ready k i d) (hnp : k.unused = some np) : i ≠ np := by
  rintro rfl
  exact h.used (unused_state hnp)

/-! ### The ends of `fork` -/

theorem forkFiles_ok (hne : i ≠ np) : ∀ (fds : List (Fin NOFILE)) (os : Os),
    (∀ fd f, (os.proc i).ofile fd = some f → 1 ≤ (os.file f).ref) →
    ∃ os', Os.forkFiles i np fds os = .ok os' ∧ (os'.proc np).pid = (os.proc np).pid
  | [], os, _ => ⟨os, rfl, rfl⟩
  | fd :: fds, os, hf => by
    rw [Os.forkFiles]
    cases hfd : (os.proc i).ofile fd with
    | none => exact forkFiles_ok hne fds os hf
    | some f =>
      have hdup : os.filedup f = .ok (os.setFile f { os.file f with ref := (os.file f).ref + 1 }) :=
        if_neg (Nat.not_lt_of_le (hf fd f hfd))
      simp only [hdup, ok_bind]
      obtain ⟨os', hr, hpid⟩ := forkFiles_ok hne fds
        ((os.setFile f { os.file f with ref := (os.file f).ref + 1 }).setFd np fd (some f)) fun fd' g hg => by
          rw [Os.setFd, proc_setProc_of_ne _ hne] at hg
          have := hf fd' g hg
          by_cases hgf : g = f
          · subst hgf
            simp only [Os.setFd, Os.setProc, Os.setFile, update_self]
            omega
          · simpa only [Os.setFd, Os.setProc, Os.setFile, update_of_ne hgf] using this
      refine ⟨os', hr, hpid.trans ?_⟩
      rw [Os.setFd, proc_setProc_self]
      rfl

theorem finish_ok (hne : i ≠ np) (hf : ∀ fd f, (k.os.proc i).ofile fd = some f → 1 ≤ (k.os.file f).ref)
    (hcwd : (k.os.proc i).cwd ≠ none) (d : Pgdir) :
    ∃ k', k.finish i np d = .ok ((k.os.proc np).pid.toInt32.toInt, k') ∧ (k'.os.proc np).state = .runnable := by
  obtain ⟨cwd, hcwd⟩ := Option.ne_none_iff_exists'.mp hcwd
  rw [finish]
  obtain ⟨os, hr, hpid⟩ := forkFiles_ok hne (List.finRange NOFILE) (k.os.setProc np { k.os.proc np with
    pgdir := some d, sz := (k.os.proc i).sz, parent := some i, tf := { (k.os.proc i).tf with eax := 0 } }) fun fd f hfd => by
      rw [proc_setProc_of_ne _ hne] at hfd
      exact hf fd f hfd
  rw [proc_setProc_self] at hpid
  simp only [hr, ok_bind, hcwd, Outcome.pure_eq, Os.setCwd, proc_setProc_self]
  refine ⟨_, congrArg (fun x : UInt32 => Outcome.ok (x.toInt32.toInt, _)) hpid, ?_⟩
  rw [proc_setProc_self]

theorem fork_eq {t : Nat} {free : List Nat} (h : Ready k i d) (hnp : k.unused = some np) (ht : k.vm.free = t :: free) :
    k.fork i = (({ k.vm with free := free } : Vm).copyuvm d (k.os.proc i).sz >>= fun r =>
      match r.1 with
      | none => r.2.kfree t >>= fun vm => pure (-1, ({ k with
          vm := vm, os := k.os.setProc np (k.dropped np none), nextpid := k.nextpid + 1, kstack := update k.kstack np none } : Forkable))
      | some d' => finish { k with
          vm := r.2, os := k.os.setProc np (k.embryo np), nextpid := k.nextpid + 1,
          kstack := update k.kstack np (some t) } i np d') := by
  have hproc : ((k.os.setProc np (k.embryo np)).proc i) = k.os.proc i := proc_setProc_of_ne _ (ne_of_unused h hnp) _
  have halloc : k.allocproc = (some np, { k with
      vm := { k.vm with free := free }, os := k.os.setProc np (k.embryo np), nextpid := k.nextpid + 1
      kstack := update k.kstack np (some t) }) := by
    simp only [allocproc, hnp, kalloc, ht]
    rfl
  rw [fork, halloc]
  simp only [hproc, h.pgdir, update_self, Option.getD_some]
  congr 1
  funext r
  obtain ⟨d', vm⟩ := r
  cases d' with
  | some d' => rfl
  | none =>
    dsimp only
    congr 1
    funext vm
    simp only [setProc, update_idem, setProc_setProc, proc_setProc_self]
    rfl

theorem allocproc_noStack (hnp : k.unused = some np) (hfree : k.vm.free = []) : k.fork i = .ok (-1, { k with
    os := k.os.setProc np (k.dropped np (k.os.proc np).pgdir), nextpid := k.nextpid + 1
    kstack := update k.kstack np none }) := by
  simp only [fork, allocproc, hnp, kalloc, hfree]
  rfl

theorem freevm_kend {vm vm' : Vm} (h : vm.freevm d = .ok vm') : vm'.kend = vm.kend :=
  ((Pooled.freevm (P := fun _ => True) (W := fun _ => True) (Q := fun _ => True) (fun _ _ => trivial) (fun _ _ => trivial)
    (.start fun _ _ => trivial) ⟨trivial, fun _ _ _ => trivial, fun _ _ _ _ => trivial⟩).of_eq_ok h).kend

theorem fork_noMemory {t : Nat} {free : List Nat} {vm : Vm} (h : Ready k i d) (hnp : k.unused = some np) (ht : k.vm.free = t :: free)
    (hr : ({ k.vm with free := free } : Vm).copyuvm d (k.os.proc i).sz = .ok (none, vm)) (hkend : vm.kend = k.vm.kend) :
    ∃ k', k.fork i = .ok (-1, k') ∧ k'.vm.free = t :: vm.free ∧ k'.os = k.os.setProc np (k.dropped np none) := by
  obtain ⟨hlo, hhi⟩ := h.valid t (ht ▸ List.mem_cons_self)
  have hfree : vm.kfree t = .ok { vm with mem := update vm.mem t fun _ => 1, free := t :: vm.free } :=
    if_neg (by rw [hkend]; omega)
  rw [fork_eq h hnp ht, hr, ok_bind]
  dsimp only
  rw [hfree, ok_bind]
  exact ⟨_, rfl, rfl, rfl⟩

section Ends
variable {t : Nat} {free : List Nat} {vm : Vm} {d' : Pgdir} (h : Ready k i d) (hnp : k.unused = some np) (hfree : k.vm.free = t :: free)
  (hc : Cloned { k.vm with free := free } d v vm d')
include hfree hc

theorem length_of_cloned : k.vm.free.length = vm.free.length + callsBefore v := by
  have := hc.length
  dsimp only at this
  rw [hfree, List.length_cons, this, callsBefore]
  omega

omit hfree in
theorem present_of_cloned {u : Nat} (hu : u < v) : d.pte u ≠ none := by
  obtain ⟨e, q, he, -⟩ := hc.copied u hu
  simp [he]

omit hfree in
theorem gets_of_cloned (hv : v * PGSIZE < sz) (he : d.pte v ≠ none) : Gets d sz v := by
  refine ⟨hv, fun u hu => ?_⟩
  rcases Nat.eq_or_lt_of_le hu with rfl | hu
  · exact he
  · exact present_of_cloned hc hu

include h

theorem valid_of_cloned {p : Nat} (hp : p ∈ d'.pages) : Valid vm p := by
  have hmem : p ∈ k.vm.free := by
    refine hfree ▸ List.mem_cons_of_mem t ?_
    rw [← Multiset.mem_coe, ← hc.pages]
    exact Multiset.mem_add.mpr (.inr hp)
  have := h.valid p hmem
  rwa [Valid, hc.kend]

theorem backed_of_cloned : d'.Backed vm :=
  ⟨hc.sparse, fun _ hp => valid_of_cloned h hfree hc (Multiset.mem_cons_of_mem (Multiset.mem_add.mpr (.inr hp)))⟩

include hnp

theorem ends_done (hv : (k.os.proc i).sz ≤ v * PGSIZE)
    (hr : ({ k.vm with free := free } : Vm).copyuvm d (k.os.proc i).sz = .ok (some d', vm)) : Ends k i d np := by
  have hproc : (k.os.setProc np (k.embryo np)).proc i = k.os.proc i := proc_setProc_of_ne _ (ne_of_unused h hnp) _
  obtain ⟨k', hfin, hstate⟩ := finish_ok (k := { k with
    vm := vm, os := k.os.setProc np (k.embryo np), nextpid := k.nextpid + 1, kstack := update k.kstack np (some t) })
    (ne_of_unused h hnp) (fun fd f hfd => h.files fd f (hproc ▸ hfd)) (hproc ▸ h.cwd) d'
  refine .done ⟨fun u hu => present_of_cloned hc ?_, ?_⟩ k' ?_ hstate
  · exact Nat.lt_of_mul_lt_mul_right (Nat.lt_of_lt_of_le hu hv)
  · have hle : pgroundup (k.os.proc i).sz / PGSIZE ≤ v := by
      simp only [pgroundup, PGSIZE] at *
      omega
    rw [length_of_cloned hfree hc]
    rcases Nat.eq_or_lt_of_le hle with heq | hlt
    · rw [heq]
      omega
    · have := callsBefore_lt hlt
      omega
  · rw [fork_eq h hnp hfree, hr, ok_bind]
    dsimp only
    rw [hfin, proc_setProc_self]
    rfl

theorem ends_absent (hv : v * PGSIZE < (k.os.proc i).sz) (he : d.pte v = none) (msg : String)
    (hr : ({ k.vm with free := free } : Vm).copyuvm d (k.os.proc i).sz = .panic msg) : Ends k i d np := by
  have hlen := length_of_cloned hfree hc
  have hge := callsBefore_ge v
  have hgets : ∀ w, Gets d (k.os.proc i).sz w → w < v := fun w hw => by
    by_contra hle
    exact hw.2 v (Nat.le_of_not_lt hle) he
  refine .stuck ?_ ?_ (fun hfits => hfits.1 v hv he) msg ?_
  · rintro (hlt | ⟨w, hw, heq⟩)
    · omega
    · have := callsBefore_lt (hgets w hw)
      omega
  · rintro (hlt | ⟨w, hw, hmod, heq⟩)
    · omega
    · have := callsBefore_table (hgets w hw) hmod
      omega
  · rw [fork_eq h hnp hfree, hr]
    rfl

theorem ends_noPage (hv : v * PGSIZE < (k.os.proc i).sz) (he : d.pte v ≠ none) (hno : vm.free = [])
    (hr : ({ k.vm with free := free } : Vm).copyuvm d (k.os.proc i).sz = vm.freevm d' >>= fun vm => pure (none, vm)) : Ends k i d np := by
  obtain ⟨vm', hfreevm, hfree'⟩ := freevm_free (hc.kend ▸ h.kend) (backed_of_cloned h hfree hc) fun _ => valid_of_cloned h hfree hc
  rw [hfreevm, ok_bind] at hr
  obtain ⟨k', hfork, hk', hos⟩ := fork_noMemory h hnp hfree hr ((freevm_kend hfreevm).trans hc.kend)
  refine .noPage (.inr ⟨v, gets_of_cloned hc hv he, ?_⟩) k' hfork ?_ none hos
  · rw [length_of_cloned hfree hc, hno, List.length_nil, Nat.zero_add]
  · rw [hk', hfree]
    exact (Multiset.coe_eq_coe.mp (hfree'.trans hc.pages)).cons t

theorem ends_noTable {e : Pte} {p : Nat} (hv : v * PGSIZE < (k.os.proc i).sz) (he : d.pte v = some e) (hp : vm.free = [p])
    (hmod : v % NPTENTRIES = 0) (hr : ({ k.vm with free := free } : Vm).copyuvm d (k.os.proc i).sz =
      freevm { vm with mem := update vm.mem p (vm.mem e.page), free := [] } d' >>= fun vm => pure (none, vm)) : Ends k i d np := by
  have hbacked : d'.Backed { vm with mem := update vm.mem p (vm.mem e.page), free := [] } :=
    ⟨hc.sparse, (backed_of_cloned h hfree hc).valid⟩
  obtain ⟨vm', hfreevm, hfree'⟩ := freevm_free (hc.kend ▸ h.kend) hbacked fun _ => valid_of_cloned h hfree hc
  rw [hfreevm, ok_bind] at hr
  obtain ⟨k', hfork, hk', -⟩ := fork_noMemory h hnp hfree hr ((freevm_kend hfreevm).trans hc.kend)
  refine .noTable (.inr ⟨v, gets_of_cloned hc hv (by simp [he]), hmod, ?_⟩) k' hfork ?_
  · rw [length_of_cloned hfree hc, hp, List.length_singleton, Nat.add_comm]
  · have hcard := congrArg Multiset.card hc.pages
    have hcard' := congrArg Multiset.card hfree'
    rw [Multiset.card_add, Multiset.coe_card, Multiset.coe_card, hp, List.length_singleton] at hcard
    rw [Multiset.card_add, Multiset.coe_card, Multiset.coe_card, List.length_nil] at hcard'
    rw [hk', List.length_cons, hfree, List.length_cons]
    dsimp only at hcard
    omega

end Ends

theorem fork_ends (h : Ready k i d) (hnp : k.unused = some np) : Ends k i d np := by
  cases hfree : k.vm.free with
  | nil =>
    refine .noPage (.inl ?_) _ (allocproc_noStack hnp hfree) (.refl _) _ rfl
    rw [hfree]
    decide
  | cons t free =>
    have hn : k.vm.free.length = free.length + 1 := by rw [hfree, List.length_cons]
    have hl : Linked ({ k.vm with free := free } : Vm) := ⟨h.linked.low, h.linked.high⟩
    have ha : Apart ({ k.vm with free := free } : Vm) d := by
      refine ⟨?_, fun p hp hf => h.apart.frames p hp (hfree ▸ List.mem_cons_of_mem t hf)⟩
      have := h.apart.nodup
      rw [hfree] at this
      exact (List.nodup_cons.mp this).2
    rcases copyuvm_ends hl ha h.backed.sparse (Nat.le_of_lt h.sz) with ⟨hlt, vm, hr, hkend, hno⟩ | ⟨v, vm, d', hc, -, hstop⟩
    · obtain ⟨k', hfork, hfree', hos⟩ := fork_noMemory h hnp hfree hr hkend
      rw [hno] at hfree'
      cases free with
      | nil =>
        refine .noPage (.inl ?_) k' hfork ?_ none hos
        · rw [hn]
          decide
        · rw [hfree', hfree]
      | cons q free =>
        refine .noTable (.inl ⟨?_, ?_⟩) k' hfork ?_
        · rw [hn, List.length_cons]
          omega
        · rw [hn]
          dsimp only at hlt
          omega
        · rw [hfree', hn, List.length_singleton, List.length_cons]
          omega
    · cases hstop with
      | done hv hr => exact ends_done h hnp hfree hc hv hr
      | absent hv he msg hr => exact ends_absent h hnp hfree hc hv he msg hr
      | trap hv e he hbad hr =>
        have hlt : v < KERNPAGE := mul_pgsize_lt hv (Nat.le_of_lt h.sz)
        have := (h.backed.valid e.page (Pgdir.mem_frames.mpr ⟨v, e, hlt, he, rfl⟩)).2
        omega
      | noPage hv he hno hr => exact ends_noPage h hnp hfree hc hv he hno hr
      | noTable hv e he p hp hmod hr => exact ends_noTable h hnp hfree hc hv he hp hmod hr

/-- A `fork` that returns -1 leaves nothing behind. -/
def FailsClean (k : Forkable) (i : ProcIdx) : Prop := ∀ k', k.fork i = .ok (-1, k') → Restored k k'

/-- The call of `kalloc` that fails, if any, is not one for a page table; the slot that is given back had no signals
    pending; and -1 is not the next pid. -/
def Harmless (k : Forkable) (i : ProcIdx) (d : Pgdir) : Prop :=
  ∀ np, k.unused = some np →
    ¬TableFails d (k.os.proc i).sz k.vm.free.length ∧
    (PageFails d (k.os.proc i).sz k.vm.free.length → (k.os.proc np).pending = 0) ∧
    (CopyFits d (k.os.proc i).sz k.vm.free.length → k.nextpid ≠ 0xffffffff)

theorem Restored.refl (k : Forkable) : Restored k k :=
  ⟨.refl _, fun _ => rfl, fun _ => rfl, fun _ => rfl, fun _ => rfl, fun _ => rfl, fun _ => rfl, fun _ => rfl, fun _ => rfl⟩

theorem restored_dropped {pgdir : Option Pgdir} (hnp : k.unused = some np) (hfree : k'.vm.free.Perm k.vm.free)
    (hos : k'.os = k.os.setProc np (k.dropped np pgdir)) : Restored k k' ↔ (k.os.proc np).pending = 0 := by
  have hproc : k'.os.proc = update k.os.proc np (k.dropped np pgdir) := by
    rw [hos]
    rfl
  constructor
  · intro h
    rw [← h.pending np, hproc, update_self]
    rfl
  · intro hp
    have hfield : ∀ {α : Type} (f : Proc → α), f (k.dropped np pgdir) = f (k.os.proc np) → ∀ q, f (k'.os.proc q) = f (k.os.proc q) := by
      intro α f hf q
      rw [hproc]
      by_cases hq : q = np
      · subst hq
        rw [update_self, hf]
      · rw [update_of_ne hq]
    exact ⟨hfree, hfield _ (unused_state hnp).symm, hfield _ rfl, hfield _ rfl, hfield _ hp.symm, hfield _ rfl, hfield _ rfl,
      fun f => by rw [hos]; rfl, fun x => by rw [hos]; rfl⟩

theorem toInt_eq_neg_one {x : UInt32} : x.toInt32.toInt = -1 ↔ x = 0xffffffff := by
  constructor
  · intro h
    have hx : x.toInt32 = -1 := Int32.toInt.inj h
    rw [← UInt32.toUInt32_toInt32 x, hx]
    rfl
  · rintro rfl
    rfl

/-- A failed `fork` leaves nothing behind exactly if it fails in the right place. -/
theorem fork_clean_iff (h : Ready k i d) : k.FailsClean i ↔ k.Harmless i d := by
  cases hnp : k.unused with
  | none =>
    have hfork : k.fork i = .ok (-1, k) := by simp only [fork, allocproc, hnp]
    refine iff_of_true (fun k' hk' => ?_) fun np hnp' => ?_
    · rw [hfork] at hk'
      cases hk'
      exact .refl k
    · rw [hnp] at hnp'
      cases hnp'
  | some np =>
    have hharm : k.Harmless i d ↔ _ := ⟨fun hh => hh np hnp, fun hh np' hnp' => Option.some.inj (hnp.symm.trans hnp') ▸ hh⟩
    rw [hharm]
    cases fork_ends h hnp with
    | noPage hpage k₁ hr hfree pgdir hos =>
      have hclean : k.FailsClean i ↔ Restored k k₁ :=
        ⟨fun hc => hc k₁ hr, fun hres k' hk' => (Prod.mk.inj (Outcome.ok.inj (hr.symm.trans hk'))).2 ▸ hres⟩
      rw [hclean, restored_dropped hnp hfree hos]
      exact ⟨fun hz => ⟨hpage.not_table, fun _ => hz, fun hfits => absurd hpage (hfits.not_page h.sz)⟩, fun hh => hh.2.1 hpage⟩
    | noTable htable k₁ hr hfree =>
      refine iff_of_false (fun hclean => ?_) fun hh => hh.1 htable
      have := (hclean k₁ hr).free.length_eq
      omega
    | done hfits k₁ hr hstate =>
      have hclean : k.FailsClean i ↔ k.nextpid ≠ 0xffffffff := by
        constructor
        · intro hc hpid
          rw [hpid] at hr
          have := (hc k₁ hr).state np
          rw [hstate, unused_state hnp] at this
          cases this
        · intro hpid k' hk'
          rw [hr] at hk'
          exact absurd (toInt_eq_neg_one.mp (Prod.mk.inj (Outcome.ok.inj hk')).1) hpid
      rw [hclean]
      exact ⟨fun hpid => ⟨hfits.not_table h.sz, fun hpage => absurd hpage (hfits.not_page h.sz), fun _ => hpid⟩, fun hh => hh.2.2 hfits⟩
    | stuck hp ht hc msg hr =>
      refine iff_of_true (fun k' hk' => ?_) ⟨ht, fun hpage => absurd hpage hp, fun hfits => absurd hfits hc⟩
      rw [hr] at hk'
      cases hk'

/-- A process of one page, alone in a kernel with `n` free pages. -/
def solo (n : Nat) : Forkable where
  os := { fs := Fs.blank
          proc := fun i => if i = 0 then { state := .running, pid := 1, sz := PGSIZE, pgdir := some onePage, cwd := some 0 } else {} }
  vm := roomy n
  kstack _ := none
  nextpid := 2
  currentPolicy := 1

theorem ready_solo (hn : n ≤ 1000) : Ready (solo n) 0 onePage where
  used := nofun
  pgdir := rfl
  sz := (by decide : PGSIZE < KERNBASE)
  kend := (by decide : 0 < 300)
  linked := ⟨(by decide : EXTMEM / PGSIZE ≤ 264), (by decide : 264 ≤ PHYSTOP / PGSIZE)⟩
  valid := roomy_valid (by omega)
  apart := ⟨roomy_nodup n, fun p hp hf => by
    obtain ⟨-, hhi⟩ := List.mem_range'_1.mp hf
    rw [frames_onePage, Multiset.mem_singleton] at hp
    omega⟩
  backed := ⟨sparse_onePage, fun p hp => by
    rw [frames_onePage, Multiset.mem_singleton] at hp
    subst hp
    exact ⟨(by decide : 300 ≤ 2002), by decide⟩⟩
  files _ _ hf := nomatch hf
  cwd := nofun

theorem unused_solo (n : Nat) : (solo n).unused = some 1 := rfl

theorem length_solo (n : Nat) : (solo n).vm.free.length = n := List.length_range'

/-- There is one page, which the kernel stack takes; it is given back. -/
theorem fork_one_page : Ready (solo 1) 0 onePage ∧ (solo 1).FailsClean 0 := by
  refine ⟨ready_solo (by decide), (fork_clean_iff (ready_solo (by decide))).mpr fun np hnp => ?_⟩
  obtain rfl := Option.some.inj hnp
  refine ⟨PageFails.not_table (.inl ?_), fun _ => rfl, fun _ => by decide⟩
  rw [length_solo]
  decide

/-- With two pages, `setupkvm` takes the second one for the page directory and does not give it back. -/
theorem fork_two_pages : Ready (solo 2) 0 onePage ∧ ¬(solo 2).FailsClean 0 := by
  have h := ready_solo (by decide : 2 ≤ 1000)
  refine ⟨h, fun hclean => ?_⟩
  have htable : TableFails onePage ((solo 2).os.proc 0).sz (solo 2).vm.free.length := .inl (by rw [length_solo]; decide)
  cases fork_ends h (unused_solo 2) with
  | noPage hp => exact hp.not_table htable
  | noTable _ k' hr hfree =>
    have := (hclean k' hr).free.length_eq
    omega
  | done hfits => exact hfits.not_table h.sz htable
  | stuck _ ht => exact ht htable

end Forkable
end Xv6
