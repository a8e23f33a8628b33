import Xv6.Theorems.Refs
import Xv6.Vm

/-! Address spaces are built from pages of a pool, and code that builds one or takes it down writes to no other page. -/

namespace Xv6
open Bytes
open Function (update update_of_ne update_self)

/-- The first page of the kernel's part of an address space. -/
abbrev KERNPAGE : Nat := KERNBASE / PGSIZE

/-- The page directory is made of pages in `P`, and all it maps below the kernel are such pages. -/
structure Pgdir.Owns (P : Nat → Prop) (d : Pgdir) : Prop where
  dir : P d.dir
  table : ∀ i t, d.table i = some t → P t
  low : ∀ v e, d.pte v = some e → v < KERNPAGE → P e.page

/-- So are the pages that it maps for the user, who can write them. -/
structure Pgdir.Built (P : Nat → Prop) (d : Pgdir) : Prop extends d.Owns P where
  user : ∀ v e, d.pte v = some e → e.user = true → P e.page ∧ e.writable = true

@[simp] theorem Vm.pte_setPte_self (d : Pgdir) (v : Nat) (e : Option Pte) : (Vm.setPte d v e).pte v = e :=
  update_self ..

theorem Vm.pte_setPte_of_ne (d : Pgdir) {u v : Nat} (h : u ≠ v) (e : Option Pte) : (Vm.setPte d v e).pte u = d.pte u :=
  update_of_ne h _ _

theorem Pgdir.Owns.setPte {P : Nat → Prop} {d : Pgdir} {v : Nat} {e : Option Pte} (h : d.Owns P)
    (hlow : ∀ x, e = some x → v < KERNPAGE → P x.page) : (Vm.setPte d v e).Owns P := by
  refine ⟨h.dir, h.table, fun u x hu hlt => ?_⟩
  by_cases huv : u = v
  · subst huv
    rw [Vm.pte_setPte_self] at hu
    exact hlow x hu hlt
  · rw [Vm.pte_setPte_of_ne d huv] at hu
    exact h.low u x hu hlt

theorem Pgdir.Built.setPte {P : Nat → Prop} {d : Pgdir} {v : Nat} {e : Option Pte} (h : d.Built P)
    (hlow : ∀ x, e = some x → v < KERNPAGE → P x.page)
    (huser : ∀ x, e = some x → x.user = true → P x.page ∧ x.writable = true) : (Vm.setPte d v e).Built P := by
  refine ⟨h.toOwns.setPte hlow, fun u x hu hx => ?_⟩
  by_cases huv : u = v
  · subst huv
    rw [Vm.pte_setPte_self] at hu
    exact huser x hu hx
  · rw [Vm.pte_setPte_of_ne d huv] at hu
    exact h.user u x hu hx

namespace Vm
variable {P W Q : Nat → Prop} {vm vm' vm₀ : Vm} {d d' cur : Pgdir} {v p : Nat}

/-- The user has page `v`, which is physical page `p`. -/
def Maps (d : Pgdir) (v p : Nat) : Prop :=
  d.table (v / NPTENTRIES) ≠ none ∧ ∃ e, d.pte v = some e ∧ e.user = true ∧ e.page = p

/-- Page `v` is out of the user's reach. -/
def Guarded (d : Pgdir) (v : Nat) : Prop := d.table (v / NPTENTRIES) ≠ none ∧ ∀ e, d.pte v = some e → e.user = false

/-- Since `vm₀` only pages in `W` were written; the free pages are in the pool `P`. -/
structure Pooled (P W : Nat → Prop) (vm₀ vm : Vm) : Prop where
  mem : ∀ p, ¬W p → vm.mem p = vm₀.mem p
  free : ∀ p ∈ vm.free, P p
  kend : vm.kend = vm₀.kend
  data : vm.data = vm₀.data

theorem Pooled.start (h : ∀ p ∈ vm.free, P p) : Pooled P W vm vm := ⟨fun _ _ => rfl, h, rfl, rfl⟩

/-! ### Pages -/

theorem Pooled.kalloc (h : Pooled P W vm₀ vm) (hk : vm.kalloc = some (p, vm')) : P p ∧ Pooled P W vm₀ vm' := by
  unfold Vm.kalloc at hk
  split at hk
  · cases hk
  · rename_i q free hfree
    cases hk
    have hmem : ∀ r ∈ p :: free, P r := hfree ▸ h.free
    exact ⟨hmem p List.mem_cons_self, h.mem, fun r hr => hmem r (List.mem_cons_of_mem p hr), h.kend, h.data⟩

theorem Pooled.set (h : Pooled P W vm₀ vm) (hp : W p) (x : Page) :
    Pooled P W vm₀ { vm with mem := update vm.mem p x } := by
  refine ⟨fun r hr => ?_, h.free, h.kend, h.data⟩
  have hrp : r ≠ p := fun heq => hr (heq ▸ hp)
  exact (update_of_ne hrp _ _).trans (h.mem r hr)

theorem Pooled.kfree (h : Pooled P W vm₀ vm) (hP : P p) (hW : W p) : (vm.kfree p).Ensures (Pooled P W vm₀) := by
  rw [Vm.kfree]
  split
  · trivial
  · have hset := h.set hW fun _ => 1
    refine ⟨hset.mem, fun r hr => ?_, h.kend, h.data⟩
    rcases List.mem_cons.mp hr with rfl | hr
    · exact hP
    · exact h.free r hr

theorem Pooled.write (h : Pooled P W vm₀ vm) (hW : W p) (off : Nat) (bs : List UInt8) :
    (vm.write p off bs).Ensures (Pooled P W vm₀) := by
  rw [Vm.write]
  split
  · trivial
  · exact h.set hW _

theorem write_byte (vm : Vm) (p off : Nat) (bs : List UInt8) :
    (vm.write p off bs).Ensures fun vm' => ∀ o, off + bs.length ≤ o → (vm'.mem p).byte o = (vm.mem p).byte o := by
  rw [Vm.write]
  split
  · trivial
  · intro o ho
    simp only [update_self]
    rw [Buffer.byte_setBytes, if_neg (by omega)]

/-! ### Building an address space -/

/-- An address space is being built from the pool. -/
structure Building (P W : Nat → Prop) (vm₀ vm : Vm) (d : Pgdir) : Prop extends Pooled P W vm₀ vm where
  built : d.Built P

theorem walkpgdir_cases {alloc : Bool} (h : vm.walkpgdir d v alloc = some (vm', d')) :
    vm' = vm ∧ d' = d ∧ d.table (v / NPTENTRIES) ≠ none ∨
    ∃ t, vm.kalloc = some (t, vm') ∧ alloc = true ∧ d.table (v / NPTENTRIES) = none ∧ d' = { d with
      table := update d.table (v / NPTENTRIES) (some t)
      pte := fun u => if u / NPTENTRIES = v / NPTENTRIES then none else d.pte u } := by
  unfold walkpgdir at h
  split at h
  · rename_i t ht
    cases h
    exact Or.inl ⟨rfl, rfl, by rw [ht]; exact Option.some_ne_none t⟩
  · rename_i hnone
    split at h
    · cases h
    · rename_i halloc
      split at h
      · cases h
      · rename_i t vm₁ hk
        cases h
        exact Or.inr ⟨t, hk, by simpa using halloc, hnone, rfl⟩

theorem Building.walkpgdir {alloc : Bool} (h : Building P W vm₀ vm d) (hw : vm.walkpgdir d v alloc = some (vm', d')) :
    Building P W vm₀ vm' d' := by
  rcases walkpgdir_cases hw with ⟨rfl, rfl, -⟩ | ⟨t, hk, -, -, rfl⟩
  · exact h
  · obtain ⟨ht, hpool⟩ := h.toPooled.kalloc hk
    refine ⟨hpool, ⟨h.built.dir, fun i t' hi => ?_, fun u e hu => ?_⟩, fun u e hu => ?_⟩
    · by_cases hiv : i = v / NPTENTRIES
      · subst hiv
        simp only [update_self, Option.some.injEq] at hi
        exact hi ▸ ht
      · simp only [update_of_ne hiv] at hi
        exact h.built.table i t' hi
    · dsimp only at hu
      split at hu
      · cases hu
      · exact h.built.low u e hu
    · dsimp only at hu
      split at hu
      · cases hu
      · exact h.built.user u e hu

theorem Building.mappages {writable user : Bool} (hwrite : user = true → writable = true) :
    ∀ (n : Nat) {vm : Vm} {d : Pgdir} {v p : Nat}, Building P W vm₀ vm d →
      (∀ j < n, user = true ∨ v + j < KERNPAGE → P (p + j)) →
      (mappages writable user n vm d v p).Ensures fun r => Building P W vm₀ r.2.1 r.2.2
  | 0, _, _, _, _, h, _ => h
  | n + 1, vm, d, v, p, h, hpages => by
    rw [Vm.mappages]
    split
    · exact h
    · rename_i vm₁ d₁ hw
      split
      · trivial
      · have h₁ := h.walkpgdir hw
        refine Building.mappages hwrite n ⟨h₁.toPooled, h₁.built.setPte ?_ ?_⟩ fun j hj hor => ?_
        · intro x hx hlt
          cases hx
          exact hpages 0 (by omega) (Or.inr (by omega))
        · intro x hx huser
          cases hx
          exact ⟨hpages 0 (by omega) (Or.inl huser), hwrite huser⟩
        · have := hpages (j + 1) (by omega) (hor.imp_right fun h => by omega)
          rwa [show p + (j + 1) = p + 1 + j by omega] at this

theorem Building.setupkvmFrom : ∀ (ks : List (Nat × Nat × Nat × Bool)) {vm : Vm} {d : Pgdir}, Building P W vm₀ vm d →
    (∀ k ∈ ks, KERNPAGE ≤ k.1) →
    (setupkvmFrom ks vm d).Ensures fun r => Pooled P W vm₀ r.2 ∧ ∀ d', r.1 = some d' → Building P W vm₀ r.2 d'
  | [], _, d, h, _ => ⟨h.toPooled, fun d' hd => Option.some.inj hd ▸ h⟩
  | (v, p, n, writable) :: ks, _, _, h, hks => by
    rw [Vm.setupkvmFrom]
    have hv := hks _ List.mem_cons_self
    refine (h.mappages Bool.noConfusion n fun j _ hor => ?_).bind fun r hr => ?_
    · rcases hor with hor | hor
      · cases hor
      · omega
    · dsimp only
      split
      · exact hr.setupkvmFrom ks fun k hk => hks k (List.mem_cons_of_mem _ hk)
      · exact ⟨hr.toPooled, fun d' hd => nomatch hd⟩

theorem Pooled.setupkvm (h : Pooled P W vm₀ vm) :
    vm.setupkvm.Ensures fun r => Pooled P W vm₀ r.2 ∧ ∀ d, r.1 = some d → Building P W vm₀ r.2 d := by
  rw [Vm.setupkvm]
  split
  · exact ⟨h, fun d hd => nomatch hd⟩
  · rename_i p vm₁ hk
    obtain ⟨hp, h₁⟩ := h.kalloc hk
    have hb : Building P W vm₀ vm₁ { dir := p, table := fun _ => none, pte := fun _ => none } :=
      ⟨h₁, ⟨hp, fun _ _ hi => (nomatch hi), fun _ _ hu => (nomatch hu)⟩, fun _ _ hu => (nomatch hu)⟩
    refine hb.setupkvmFrom _ fun k hk => ?_
    simp only [kmap, List.mem_cons, List.not_mem_nil, or_false] at hk
    rcases hk with rfl | rfl | rfl | rfl
    all_goals simp only [KERNPAGE, KERNBASE, KERNLINK, DEVSPACE, EXTMEM, PGSIZE]; omega

/-! ### Growing and shrinking -/

theorem div_lt_kernpage {a : Nat} (h : a < KERNBASE) : a / PGSIZE < KERNPAGE := by
  simp only [KERNPAGE, KERNBASE, PGSIZE] at *
  omega

def Fewer (d d' : Pgdir) : Prop := ∀ v e, d'.pte v = some e → d.pte v = some e

theorem Pooled.deallocuvmFrom {oldsz : Nat} (hQP : ∀ p, Q p → P p) (hQW : ∀ p, Q p → W p) (hsz : oldsz ≤ KERNBASE) :
    ∀ (left : Nat) {vm : Vm} {d : Pgdir} (a : Nat), Pooled P W vm₀ vm → d.Owns Q →
      (deallocuvmFrom oldsz left vm d a).Ensures fun r => Pooled P W vm₀ r.1 ∧ r.2.Owns Q ∧ Fewer d r.2
  | 0, _, _, _, h, hd => ⟨h, hd, fun _ _ => id⟩
  | left + 1, vm, d, a, h, hd => by
    rw [Vm.deallocuvmFrom]
    split
    · rename_i ha
      split
      · exact Pooled.deallocuvmFrom hQP hQW hsz left _ h hd
      · split
        · exact Pooled.deallocuvmFrom hQP hQW hsz left _ h hd
        · rename_i e he
          split
          · trivial
          · have hq : Q e.page := hd.low _ e he (div_lt_kernpage (Nat.lt_of_lt_of_le ha hsz))
            refine (h.kfree (hQP _ hq) (hQW _ hq)).bind fun vm₁ h₁ => ?_
            refine (Pooled.deallocuvmFrom hQP hQW hsz left _ h₁ (hd.setPte (e := none) fun _ hx => nomatch hx)).mono fun r hr => ?_
            refine ⟨hr.1, hr.2.1, fun v x hx => ?_⟩
            have hx := hr.2.2 v x hx
            by_cases hv : v = a / PGSIZE
            · subst hv
              rw [pte_setPte_self] at hx
              cases hx
            · rwa [pte_setPte_of_ne d hv] at hx
    · exact ⟨h, hd, fun _ _ => id⟩

theorem Pooled.deallocuvm {oldsz newsz : Nat} (hQP : ∀ p, Q p → P p) (hQW : ∀ p, Q p → W p) (hsz : oldsz ≤ KERNBASE)
    (h : Pooled P W vm₀ vm) (hd : d.Owns Q) :
    (vm.deallocuvm d oldsz newsz).Ensures fun r => Pooled P W vm₀ r.2.1 ∧ r.2.2.Owns Q ∧ Fewer d r.2.2 := by
  rw [Vm.deallocuvm]
  split
  · exact ⟨h, hd, fun _ _ => id⟩
  · exact (Pooled.deallocuvmFrom hQP hQW hsz _ _ h hd).bind fun r hr => hr

theorem Pooled.freeTables (hQP : ∀ p, Q p → P p) (hQW : ∀ p, Q p → W p) (hd : d.Owns Q) :
    ∀ (is : List Nat) {vm : Vm}, Pooled P W vm₀ vm → (freeTables d is vm).Ensures (Pooled P W vm₀)
  | [], _, h => h
  | i :: is, vm, h => by
    rw [Vm.freeTables]
    split
    · exact Pooled.freeTables hQP hQW hd is h
    · rename_i t ht
      have hq := hd.table i t ht
      exact (h.kfree (hQP t hq) (hQW t hq)).bind fun _ h₁ => Pooled.freeTables hQP hQW hd is h₁

theorem Pooled.freevm (hQP : ∀ p, Q p → P p) (hQW : ∀ p, Q p → W p) (h : Pooled P W vm₀ vm) (hd : d.Owns Q) :
    (vm.freevm d).Ensures (Pooled P W vm₀) := by
  unfold Vm.freevm
  generalize List.range NPTENTRIES = is
  refine (h.deallocuvm hQP hQW (le_refl KERNBASE) hd).bind fun r hr => ?_
  refine (Pooled.freeTables hQP hQW hr.2.1 _ hr.1).bind fun vm₁ h₁ => ?_
  exact h₁.kfree (hQP _ hr.2.1.dir) (hQW _ hr.2.1.dir)

/-- What `allocuvm` returns: 0, the new size, or the old one if that is larger. -/
def Sized (oldsz newsz r : Nat) : Prop := r = 0 ∨ newsz < KERNBASE ∧ r = max oldsz newsz

theorem Building.allocuvmFrom {oldsz newsz : Nat} (hPW : ∀ p, P p → W p) (hsz : newsz < KERNBASE) (hle : oldsz ≤ newsz) :
    ∀ (left : Nat) {vm : Vm} {d : Pgdir} (a : Nat), Building P W vm₀ vm d →
      (allocuvmFrom oldsz newsz left vm d a).Ensures fun r => Building P W vm₀ r.2.1 r.2.2 ∧ Sized oldsz newsz r.1
  | 0, _, _, _, h => ⟨h, Or.inr ⟨hsz, (Nat.max_eq_right hle).symm⟩⟩
  | left + 1, vm, d, a, h => by
    rw [Vm.allocuvmFrom]
    split
    · split
      · refine (h.toPooled.deallocuvm (fun _ hp => hp) hPW (Nat.le_of_lt hsz) h.built.toOwns).bind fun r hr => ?_
        exact ⟨⟨hr.1, hr.2.1, fun v e hv => h.built.user v e (hr.2.2 v e hv)⟩, Or.inl rfl⟩
      · rename_i p vm₁ hk
        obtain ⟨hp, h₁⟩ := h.toPooled.kalloc hk
        have hzero : Building P W vm₀ { vm₁ with mem := update vm₁.mem p .zero } d :=
          ⟨h₁.set (hPW p hp) _, h.built⟩
        refine (hzero.mappages (fun _ => rfl) 1 fun j hj _ => ?_).bind fun r hr => ?_
        · rw [show p + j = p by omega]
          exact hp
        · exact Building.allocuvmFrom hPW hsz hle left _ hr
    · exact ⟨h, Or.inr ⟨hsz, (Nat.max_eq_right hle).symm⟩⟩

theorem Building.allocuvm {oldsz newsz : Nat} (hPW : ∀ p, P p → W p) (h : Building P W vm₀ vm d) :
    (vm.allocuvm d oldsz newsz).Ensures fun r => Building P W vm₀ r.2.1 r.2.2 ∧ Sized oldsz newsz r.1 := by
  rw [Vm.allocuvm]
  split
  · exact ⟨h, Or.inl rfl⟩
  · split
    · rename_i hnew hlt
      exact ⟨h, Or.inr ⟨by omega, (Nat.max_eq_left (Nat.le_of_lt hlt)).symm⟩⟩
    · exact h.allocuvmFrom hPW (by omega) (by omega) _ _

theorem Building.clearpteu {va : Nat} (h : Building P W vm₀ vm d) :
    (vm.clearpteu d va).Ensures fun d' => Building P W vm₀ vm d' := by
  rw [Vm.clearpteu]
  split
  · trivial
  · refine ⟨h.toPooled, h.built.setPte (fun x hx hlt => ?_) fun x hx huser => ?_⟩
    · obtain ⟨e, he, rfl⟩ := Option.map_eq_some_iff.mp hx
      exact h.built.low _ e he hlt
    · obtain ⟨e, he, rfl⟩ := Option.map_eq_some_iff.mp hx
      cases huser

theorem clearpteu_guarded (vm : Vm) (d : Pgdir) (va : Nat) : (vm.clearpteu d va).Ensures fun d' => Guarded d' (va / PGSIZE) := by
  rw [Vm.clearpteu]
  split
  · trivial
  · rename_i x hw
    refine ⟨?_, fun e he => ?_⟩
    · rcases walkpgdir_cases hw with ⟨-, -, ht⟩ | ⟨t, -, h, -, -⟩
      · exact ht
      · cases h
    · rw [pte_setPte_self] at he
      obtain ⟨e', -, rfl⟩ := Option.map_eq_some_iff.mp he
      rfl

/-! ### Loading -/

theorem Pooled.loaduvmFrom {devsw : DevSw} {ip : InodeIdx} {addr offset sz : Nat} (hPW : ∀ p, P p → W p) (hd : d.Built P)
    (hW : (∀ p, W p) ∨ (∀ i < sz, addr + i < KERNBASE) ∧ W 0) : ∀ (left : Nat) {vm : Vm} (fs : Fs) (i : Nat), Pooled P W vm₀ vm →
    (loaduvmFrom devsw d ip addr offset sz left vm fs i).Ensures fun r => Pooled P W vm₀ r.2.1 ∧ Fs.Reads devsw ip fs r.2.2
  | 0, _, fs, _, h => ⟨h, .refl⟩
  | left + 1, vm, fs, i, h => by
    rw [Vm.loaduvmFrom]
    split
    · rename_i hi
      split
      · trivial
      · have hp : W (((d.pte ((addr + i) % 2 ^ 32 / PGSIZE)).map Pte.page).getD 0) := by
          rcases hW with hall | ⟨hlow, hzero⟩
          · exact hall _
          · have hlt : (addr + i) % 2 ^ 32 / PGSIZE < KERNPAGE := by
              have := hlow i hi
              simp only [KERNPAGE, KERNBASE, PGSIZE] at *
              omega
            cases he : d.pte ((addr + i) % 2 ^ 32 / PGSIZE) with
            | none => exact hzero
            | some e => exact hPW _ (hd.low _ e he hlt)
        refine (Fs.readi_reads devsw fs ip _ _).bind fun r hr => ?_
        refine (h.write hp 0 r.2.1).bind fun vm₁ h₁ => ?_
        split
        · exact ⟨h₁, hr⟩
        · refine (Pooled.loaduvmFrom hPW hd hW left r.2.2 _ h₁).mono fun r' hr' => ?_
          exact ⟨hr'.1, hr.trans hr'.2⟩
    · exact ⟨h, .refl⟩

theorem Building.loaduvm {devsw : DevSw} {fs : Fs} {ip : InodeIdx} {addr offset sz : Nat} (hPW : ∀ p, P p → W p)
    (h : Building P W vm₀ vm d) (hW : (∀ p, W p) ∨ (∀ i < sz, addr + i < KERNBASE) ∧ W 0) :
    (loaduvm devsw vm fs d ip addr offset sz).Ensures fun r => Building P W vm₀ r.2.1 d ∧ Fs.Reads devsw ip fs r.2.2 := by
  rw [Vm.loaduvm]
  split
  · trivial
  · exact (h.toPooled.loaduvmFrom hPW h.built hW _ fs 0).mono fun r hr => ⟨⟨hr.1, h.built⟩, hr.2⟩

/-! ### Copying to user memory -/

/-- What `uva2ka` reads through a null pointer is no entry of a user page, unless all pages may be written anyway. -/
def NullSafe (W : Nat → Prop) (cur : Pgdir) (vm : Vm) : Prop :=
  (∀ p, W p) ∨ ∀ e, cur.pte 0 = some e →
    ¬W e.page ∧ ((vm.mem e.page).word 4 0 % 2 = 0 ∨ (vm.mem e.page).word 4 0 / 4 % 2 = 0)

theorem NullSafe.keep (h : NullSafe W cur vm₀) (hp : Pooled P W vm₀ vm) : NullSafe W cur vm :=
  h.imp_right fun h e he => by
    rw [hp.mem _ (h e he).1]
    exact h e he

theorem walkpgdir_of_table {alloc : Bool} (h : d.table (v / NPTENTRIES) ≠ none) : vm.walkpgdir d v alloc = some (vm, d) := by
  obtain ⟨t, ht⟩ := Option.ne_none_iff_exists'.mp h
  simp only [Vm.walkpgdir, ht]

theorem uva2ka_of_maps (h : Maps d v p) : vm.uva2ka cur d v = .ok (some p) := by
  obtain ⟨ht, e, he, huser, rfl⟩ := h
  simp only [uva2ka, walkpgdir_of_table ht, he, huser, if_true]

theorem uva2ka_of_guarded (h : Guarded d v) : vm.uva2ka cur d v = .ok none := by
  simp only [uva2ka, walkpgdir_of_table h.1]
  cases he : d.pte v with
  | none => rfl
  | some e => simp [h.2 e he]

/-- The page that `uva2ka` finds is a user page of the directory, or stands in the entry that it reads at address 0. -/
theorem uva2ka_spec (hs : NullSafe W cur vm) :
    (vm.uva2ka cur d v).Ensures fun r => ∀ p, r = some p → Maps d v p ∨ d.table (v / NPTENTRIES) = none ∧ ∀ q, W q := by
  unfold uva2ka
  split
  · rename_i x hw
    have ht : d.table (v / NPTENTRIES) ≠ none := by
      rcases walkpgdir_cases hw with ⟨-, -, ht⟩ | ⟨t, -, h, -, -⟩
      · exact ht
      · cases h
    split
    · exact fun p hp => nomatch hp
    · rename_i e he
      intro p hp
      split at hp
      · rename_i huser
        exact Or.inl ⟨ht, e, he, huser, Option.some.inj hp⟩
      · cases hp
  · rename_i hw
    have ht : d.table (v / NPTENTRIES) = none := by
      by_contra ht
      rw [walkpgdir_of_table ht] at hw
      cases hw
    split
    · trivial
    · rename_i e he
      intro p hp
      split at hp
      · cases hp
      · rename_i hbits
        rcases hs with hall | hs
        · exact Or.inr ⟨ht, hall⟩
        · exact absurd (hs e he).2 hbits

theorem Building.copyoutFrom (hPW : ∀ p, P p → W p) (hs : NullSafe W cur vm₀) : ∀ (left : Nat) {vm : Vm} (va : Nat)
    (bs : List UInt8), Building P W vm₀ vm d →
    (copyoutFrom cur d left vm va bs).Ensures fun r => Building P W vm₀ r.2 d
  | 0, _, _, _, h => h
  | left + 1, vm, va, bs, h => by
    rw [Vm.copyoutFrom]
    split
    · refine (uva2ka_spec (hs.keep h.toPooled)).bind fun r hr => ?_
      cases r with
      | none => exact h
      | some p =>
        have hp : W p := by
          rcases hr p rfl with ⟨-, e, he, huser, rfl⟩ | ⟨-, hall⟩
          · exact hPW _ (h.built.user _ e he huser).1
          · exact hall p
        refine (h.toPooled.write hp _ _).bind fun vm₁ h₁ => ?_
        exact Building.copyoutFrom hPW hs left _ _ ⟨h₁, h.built⟩
    · exact h

theorem Building.copyout {va : Nat} {bs : List UInt8} (hPW : ∀ p, P p → W p) (hs : NullSafe W cur vm₀)
    (h : Building P W vm₀ vm d) : (vm.copyout cur d va bs).Ensures fun r => Building P W vm₀ r.2 d :=
  h.copyoutFrom hPW hs _ va bs

theorem copyoutFrom_nil (left va : Nat) : copyoutFrom cur d left vm va [] = .ok (true, vm) := by
  cases left <;> rfl

theorem copyout_found {va : Nat} {bs : List UInt8} (h : vm.uva2ka cur d (va / PGSIZE) = .ok (some p)) (hne : bs ≠ [])
    (hfit : va % PGSIZE + bs.length ≤ PGSIZE) :
    vm.copyout cur d va bs = vm.write p (va % PGSIZE) bs >>= fun vm => .ok (true, vm) := by
  obtain ⟨b, bs, rfl⟩ := List.exists_cons_of_ne_nil hne
  have hmin : min (PGSIZE - va % PGSIZE) (b :: bs).length = (b :: bs).length := by omega
  rw [copyout, List.length_cons, Vm.copyoutFrom, if_pos (by simp), h, Outcome.ok_bind]
  dsimp only
  rw [hmin, List.take_length, List.drop_length]
  simp only [copyoutFrom_nil]

theorem copyout_in_page {va : Nat} {bs : List UInt8} (h : Maps d (va / PGSIZE) p) (hne : bs ≠ [])
    (hfit : va % PGSIZE + bs.length ≤ PGSIZE) :
    vm.copyout cur d va bs = vm.write p (va % PGSIZE) bs >>= fun vm => .ok (true, vm) :=
  copyout_found (uva2ka_of_maps h) hne hfit

theorem copyout_guarded {va : Nat} {bs : List UInt8} (h : Guarded d (va / PGSIZE)) (hne : bs ≠ []) :
    vm.copyout cur d va bs = .ok (false, vm) := by
  obtain ⟨c, rest, rfl⟩ := List.exists_cons_of_ne_nil hne
  have hpos : 0 < (c :: rest).length := Nat.succ_pos _
  rw [copyout, List.length_cons, copyoutFrom, if_pos hpos, uva2ka_of_guarded h]
  rfl

theorem copyout_maps (va : Nat) {bs : List UInt8} (hs : NullSafe W cur vm) (hW : ¬∀ p, W p) (hne : bs ≠ []) :
    (vm.copyout cur d va bs).Ensures fun r => r.1 = true → ∃ p, Maps d (va / PGSIZE) p := by
  obtain ⟨b, bs, rfl⟩ := List.exists_cons_of_ne_nil hne
  rw [copyout, List.length_cons, Vm.copyoutFrom, if_pos (by simp)]
  refine (uva2ka_spec hs).bind fun r hr => ?_
  cases r with
  | none => exact fun h => nomatch h
  | some p =>
    have hmaps : Maps d (va / PGSIZE) p := (hr p rfl).resolve_right fun h => hW h.2
    exact (Outcome.ensures_true _).mono fun _ _ _ => ⟨p, hmaps⟩

theorem copyoutFrom_guarded {g : Nat} (hg : Guarded d g) : ∀ (left : Nat) {vm : Vm} {va : Nat} {bs : List UInt8} {j : Nat},
    bs.length ≤ left → va < 2 ^ 32 → j < bs.length → (va + j) % 2 ^ 32 / PGSIZE = g →
    (copyoutFrom cur d left vm va bs).Ensures fun r => r.1 = false
  | 0, _, _, _, _, hleft, _, hj, _ => by omega
  | left + 1, vm, va, bs, j, hleft, hva, hj, hpage => by
    rw [Vm.copyoutFrom, if_pos (by omega)]
    by_cases hhere : va / PGSIZE = g
    · rw [hhere, uva2ka_of_guarded hg]
      rfl
    · refine (Outcome.ensures_true _).bind fun r _ => ?_
      cases r with
      | none => rfl
      | some p =>
        refine (Outcome.ensures_true _).bind fun vm₁ _ => ?_
        simp only [PGSIZE] at hpage hhere ⊢
        -- The guarded page is not reached in this round, so the round goes up to the end of its page.
        have hbeyond : 4096 - va % 4096 ≤ j := by
          by_contra hj'
          have : (va + j) % 2 ^ 32 / 4096 = va / 4096 := by omega
          omega
        rw [Nat.min_eq_left (by omega)]
        refine copyoutFrom_guarded hg left (j := j - (4096 - va % 4096)) ?_ (Nat.mod_lt _ (by decide)) ?_ ?_
        · rw [List.length_drop]
          omega
        · rw [List.length_drop]
          omega
        · have hsame : va / 4096 * 4096 + 4096 + (j - (4096 - va % 4096)) = va + j := by omega
          rw [Nat.mod_add_mod, hsame]
          exact hpage

end Vm
end Xv6
