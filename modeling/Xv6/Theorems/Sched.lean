import Mathlib.Data.Int.CardIntervalMod
import Mathlib.Data.Set.Card
import Xv6.Sched

/-! A drawn ticket runs its owner, and then also the processes behind it that are RUNNABLE. The generator that draws the
    tickets is nearly uniform. -/

namespace Xv6
open Outcome (bind_eq_ok ok_bind)
namespace Sched
variable {ran : ProcIdx → Table → Table} {table table' : Table} {t : Nat} {ds : List ProcIdx}

/-- `sum(ntickets[0..i))` -/
def ticketsBelow (table : Table) (i : Nat) : Nat := (((List.finRange NPROC).take i).map fun p => (table p).ntickets).sum

/-- The ticket is one of slot `i`. -/
def Owner (table : Table) (t : Nat) (i : ProcIdx) : Prop := ticketsBelow table i ≤ t ∧ t < ticketsBelow table (i + 1)

instance : Decidable (Owner table t i) := inferInstanceAs (Decidable (_ ∧ _))

/-- The lottery for ticket `t`: what is dispatched is the owner of the ticket, if it is RUNNABLE. -/
def Lottery (ran : ProcIdx → Table → Table) (table : Table) (t : Nat) : Prop :=
  ∃ ds table', dispatch ran t (List.finRange NPROC) table 0 = .ok (ds, table') ∧
    ∀ i, i ∈ ds ↔ Owner table t i ∧ (table i).state = .runnable

/-- Nothing overflows at the owner of the ticket; and if it gets the processor, the process behind it is not RUNNABLE when
    it gives the processor back. -/
def Sole (ran : ProcIdx → Table → Table) (table : Table) (t : Nat) : Prop :=
  ∀ w, Owner table t w → ticketsBelow table (w + 1) ≤ INT_MAX ∧
    ((table w).state = .runnable → ∀ n : ProcIdx, n.val = w + 1 →
      ticketsBelow table (w + 1) + (ran w (switchTo table w) n).ntickets ≤ INT_MAX ∧
        (ran w (switchTo table w) n).state ≠ .runnable)

/-! ### Tickets -/

theorem drop_finRange (i : ProcIdx) : (List.finRange NPROC).drop i = i :: (List.finRange NPROC).drop (i + 1) := by
  rw [List.drop_eq_getElem_cons (by simp), List.getElem_finRange]
  rfl

theorem ticketsBelow_succ (table : Table) (i : ProcIdx) : ticketsBelow table (i + 1) = ticketsBelow table i + (table i).ntickets := by
  unfold ticketsBelow
  rw [List.take_add_one, List.map_append, List.sum_append]
  simp

theorem ticketsBelow_mono {i j : Nat} (h : i ≤ j) : ticketsBelow table i ≤ ticketsBelow table j := by
  unfold ticketsBelow
  exact ((List.take_sublist_take_left h).map _).sum_le_sum fun _ _ => Nat.zero_le _

theorem Owner.unique {i j : ProcIdx} (hi : Owner table t i) (hj : Owner table t j) : i = j := by
  obtain ⟨hi₁, hi₂⟩ := hi
  obtain ⟨hj₁, hj₂⟩ := hj
  refine Fin.ext (Nat.le_antisymm (Nat.not_lt.mp fun hlt => ?_) (Nat.not_lt.mp fun hlt => ?_))
  · exact absurd (hj₂.trans_le (ticketsBelow_mono (Nat.succ_le_of_lt hlt))) (Nat.not_lt.mpr hi₁)
  · exact absurd (hi₂.trans_le (ticketsBelow_mono (Nat.succ_le_of_lt hlt))) (Nat.not_lt.mpr hj₁)

theorem exists_owner_iff : (∃ i, Owner table t i) ↔ t < ticketsBelow table NPROC := by
  constructor
  · rintro ⟨i, hi⟩
    exact hi.2.trans_le (ticketsBelow_mono i.isLt)
  · intro hlt
    by_contra hex
    have hnone : ∀ i ≤ NPROC, ticketsBelow table i ≤ t := by
      intro i
      induction i with
      | zero => exact fun _ => Nat.zero_le t
      | succ i ih =>
        intro hi
        exact Nat.not_lt.mp fun h => hex ⟨⟨i, hi⟩, ih (Nat.le_of_succ_le hi), h⟩
    exact absurd (hnone NPROC (le_refl NPROC)) (Nat.not_le.mpr hlt)

/-! ### The loop -/

theorem dispatch_skip (i : Nat) (hi : i ≤ NPROC) (hbelow : ticketsBelow table i ≤ t) (ht : t ≤ INT_MAX) :
    dispatch ran t (List.finRange NPROC) table 0 =
      dispatch ran t ((List.finRange NPROC).drop i) table (ticketsBelow table i) := by
  induction i with
  | zero => rfl
  | succ i ih =>
    have hmono : ticketsBelow table i ≤ ticketsBelow table (i + 1) := ticketsBelow_mono (Nat.le_succ i)
    have hsucc : ticketsBelow table i + (table ⟨i, hi⟩).ntickets = ticketsBelow table (i + 1) :=
      (ticketsBelow_succ table ⟨i, hi⟩).symm
    rw [ih (Nat.le_of_succ_le hi) (hmono.trans hbelow), drop_finRange ⟨i, hi⟩, dispatch, add, hsucc, if_pos (hbelow.trans ht),
      ok_bind, if_pos hbelow]

theorem dispatch_owner (ran : ProcIdx → Table → Table) {w : ProcIdx} (hw : Owner table t w) (ht : t ≤ INT_MAX) :
    dispatch ran t (List.finRange NPROC) table 0 = (do
      let counter ← add (ticketsBelow table w) (table w).ntickets
      if (table w).state ≠ .runnable then .ok ([], table)
      else
        let (more, table) ← dispatch ran t ((List.finRange NPROC).drop (w + 1)) (ran w (switchTo table w)) counter
        .ok (w :: more, table)) := by
  rw [dispatch_skip w w.isLt.le hw.1 ht, drop_finRange, dispatch, add, ← ticketsBelow_succ]
  split
  · rw [ok_bind, ok_bind, if_neg (Nat.not_le.mpr hw.2)]
  · rfl

theorem dispatch_past {p : ProcIdx} {ps : List ProcIdx} {counter : Nat} (hpast : t < counter)
    (h : dispatch ran t (p :: ps) table counter = .ok (ds, table')) :
    counter + (table p).ntickets ≤ INT_MAX ∧ ((table p).state = .runnable → p ∈ ds) := by
  rw [dispatch, add] at h
  split at h
  · rename_i hle
    rw [ok_bind, if_neg (by omega)] at h
    refine ⟨hle, fun hrun => ?_⟩
    rw [if_neg (not_not_intro hrun)] at h
    obtain ⟨⟨more, last⟩, -, h⟩ := bind_eq_ok.mp h
    cases h
    exact List.mem_cons_self
  · cases h

/-- The lottery for a ticket is right exactly if no process that is RUNNABLE comes behind its owner when that gives the
    processor back. -/
theorem lottery_iff (ran : ProcIdx → Table → Table) (table : Table) (ht : t ≤ INT_MAX) : Lottery ran table t ↔ Sole ran table t := by
  constructor
  · rintro ⟨ds, table', hds, hlottery⟩ w hw
    rw [dispatch_owner ran hw ht, add, ← ticketsBelow_succ] at hds
    split at hds
    · rename_i hle
      refine ⟨hle, fun hrun n hn => ?_⟩
      rw [ok_bind, if_neg (not_not_intro hrun), ← hn, drop_finRange] at hds
      obtain ⟨⟨more, last⟩, hmore, hds⟩ := bind_eq_ok.mp hds
      cases hds
      rw [hn] at hmore
      obtain ⟨hle', hmem⟩ := dispatch_past hw.2 hmore
      refine ⟨hle', fun hrun' => ?_⟩
      -- The process behind was dispatched too, but the ticket is not its own.
      have howner := ((hlottery n).mp (List.mem_cons_of_mem w (hmem hrun'))).1
      have : n.val = w.val := congrArg Fin.val (howner.unique hw)
      omega
    · cases hds
  · intro hsole
    by_cases hex : ∃ w, Owner table t w
    · obtain ⟨w, hw⟩ := hex
      obtain ⟨hle, hnext⟩ := hsole w hw
      have hskip := dispatch_owner ran hw ht
      rw [add, ← ticketsBelow_succ, if_pos hle, ok_bind] at hskip
      by_cases hrun : (table w).state = .runnable
      · have hstop : ∃ last, dispatch ran t ((List.finRange NPROC).drop (w + 1)) (ran w (switchTo table w)) (ticketsBelow table (w + 1)) =
            .ok ([], last) := by
          by_cases hlast : w.val + 1 < NPROC
          · obtain ⟨hle', hstop⟩ := hnext hrun ⟨w + 1, hlast⟩ rfl
            refine ⟨ran w (switchTo table w), ?_⟩
            rw [drop_finRange ⟨w + 1, hlast⟩, dispatch, add, if_pos hle', ok_bind,
              if_neg (Nat.not_le.mpr (Nat.lt_add_right _ hw.2)), if_pos hstop]
          · rw [List.drop_eq_nil_of_le (by simpa using hlast)]
            exact ⟨_, rfl⟩
        obtain ⟨last, hstop⟩ := hstop
        rw [if_neg (not_not_intro hrun), hstop, ok_bind] at hskip
        refine ⟨[w], last, hskip, fun i => List.mem_singleton.trans ⟨?_, fun hi => hi.1.unique hw⟩⟩
        rintro rfl
        exact ⟨hw, hrun⟩
      · rw [if_pos hrun] at hskip
        refine ⟨[], table, hskip, fun i => ⟨fun hi => absurd hi List.not_mem_nil, fun ⟨hi, hi'⟩ => ?_⟩⟩
        exact absurd (hi.unique hw ▸ hi') hrun
    · have hall : ticketsBelow table NPROC ≤ t := Nat.not_lt.mp fun hlt => hex (exists_owner_iff.mpr hlt)
      refine ⟨[], table, ?_, fun i => ⟨fun hi => absurd hi List.not_mem_nil, fun hi => absurd ⟨i, hi.1⟩ hex⟩⟩
      rw [dispatch_skip NPROC (le_refl NPROC) hall ht, List.drop_eq_nil_of_le (by simp)]
      rfl

/-- A process that gives the processor back at once. -/
def yields (p : ProcIdx) (table : Table) : Table := Function.update table p { table p with state := .runnable }

/-- Two processes, with an unused slot between them. -/
def apart : Table := fun i => if i.val = 0 ∨ i.val = 2 then { state := .runnable, ntickets := 10 } else {}

/-- Nobody is behind the owner. -/
theorem lottery_iff_apart : Lottery yields apart 3 :=
  (lottery_iff _ apart (t := 3) (by decide)).mpr (by
    intro w hw
    have h0 : w = 0 := hw.unique (by decide)
    subst h0
    refine ⟨by decide, fun _ n hn => ?_⟩
    have hn : n = 1 := Fin.ext hn
    subst hn
    decide)

def together : Table := fun i => if i.val < 3 then { state := .runnable, ntickets := 10 } else {}

/-- The scheduler draws ticket 0 of the first process; all three run. -/
theorem three_dispatched : ∃ last next, rand (srand 0) 31 = .ok (0, next) ∧ countTickets together (List.finRange NPROC) 1 = .ok 31 ∧
    pass yields (srand 0) together = .ok ([0, 1, 2], last, next) ∧ Owner together 0 0 ∧ ¬Lottery yields together 0 := by
  have hcount : countTickets together (List.finRange NPROC) 1 = .ok 31 := by
    obtain ⟨n, hn, rfl⟩ : ∃ n, countTickets together (List.finRange NPROC) 1 = .ok n ∧ n = 31 := by decide +kernel
    exact hn
  have hrand : rand (srand 0) 31 = .ok (0, 12345) := by rfl
  obtain ⟨⟨_, last⟩, hds, rfl⟩ : ∃ r, dispatch yields 0 (List.finRange NPROC) together 0 = .ok r ∧ r.1 = [0, 1, 2] := by decide +kernel
  refine ⟨last, 12345, hrand, hcount, ?_, by decide, ?_⟩
  · rw [pass, hcount, ok_bind, hrand, ok_bind]
    dsimp only
    rw [hds, ok_bind]
  · rintro ⟨ds', last', hds', hlottery⟩
    obtain rfl : [0, 1, 2] = ds' := congrArg Prod.fst (Outcome.ok.inj (hds.symm.trans hds'))
    exact absurd ((hlottery 1).mp (by decide)).1 (by decide)

/-! ### The generator -/

section Generator
open Finset

/-- In a range of numbers, the quotients by `b` have each remainder modulo `m` equally often, up to one block. -/
theorem card_blocks {b m v : Nat} (N : Nat) (hb : 0 < b) (hv : v < m) :
    b * (N / (b * m)) ≤ ((range N).filter fun y => y / b % m = v).card ∧
      ((range N).filter fun y => y / b % m = v).card ≤ b * (N / (b * m)) + b := by
  have hbm : 0 < b * m := Nat.mul_pos hb (by omega)
  have hfiber : ∀ j ∈ range b, N / (b * m) ≤ (((range N).filter fun y => y / b % m = v).filter fun y => y % b = j).card ∧
      (((range N).filter fun y => y / b % m = v).filter fun y => y % b = j).card ≤ N / (b * m) + 1 := by
    intro j hj
    have hj : j < b := mem_range.mp hj
    have hlt : j + b * v < b * m := by
      have : b * (v + 1) ≤ b * m := Nat.mul_le_mul_left b hv
      rw [Nat.mul_succ] at this
      omega
    have hmod : ∀ y, (y / b % m = v ∧ y % b = j) ↔ y ≡ j + b * v [MOD b * m] := by
      intro y
      rw [Nat.ModEq, Nat.mod_eq_of_lt hlt, Nat.mod_mul]
      constructor
      · rintro ⟨rfl, rfl⟩
        rfl
      · intro h
        have hrem : y % b = j := by
          have := congrArg (· % b) h
          simpa [Nat.mod_eq_of_lt hj] using this
        rw [hrem] at h
        exact ⟨Nat.eq_of_mul_eq_mul_left hb (Nat.add_left_cancel h), hrem⟩
    have hcount := Nat.count_modEq_card N hbm (j + b * v)
    rw [Nat.count_eq_card_filter_range] at hcount
    rw [filter_filter, filter_congr fun y _ => hmod y, hcount]
    split <;> omega
  have hsum := card_eq_sum_card_fiberwise (s := (range N).filter fun y => y / b % m = v) (t := range b) (f := (· % b))
    fun y _ => by simpa using Nat.mod_lt y hb
  rw [hsum]
  constructor
  · have := card_nsmul_le_sum (range b) _ _ fun j hj => (hfiber j hj).1
    simpa using this
  · have := sum_le_card_nsmul (range b) _ _ fun j hj => (hfiber j hj).2
    simpa [Nat.mul_succ] using this

theorem advance_bijective : Function.Bijective fun next : UInt32 => next * 1103515245 + 12345 := by
  refine Function.bijective_iff_has_inverse.mpr ⟨fun next => (next - 12345) * 4005161829, fun next => ?_, fun next => ?_⟩
  · show (next * 1103515245 + 12345 - 12345) * 4005161829 = next
    rw [UInt32.add_sub_cancel, UInt32.mul_assoc, show (1103515245 : UInt32) * 4005161829 = 1 from rfl, UInt32.mul_one]
  · show (next - 12345) * 4005161829 * 1103515245 + 12345 = next
    rw [UInt32.mul_assoc, show (4005161829 : UInt32) * 1103515245 = 1 from rfl, UInt32.mul_one, UInt32.sub_add_cancel]

theorem rand_eq {n : Nat} (hn : n + 1 ≤ 2 ^ 15) (next : UInt32) : rand next n =
    .ok ((next * 1103515245 + 12345).toNat / (2 * (n + 1)) % (n + 1), next * 1103515245 + 12345) := by
  rw [rand, add, if_pos (by unfold INT_MAX; omega), ok_bind, add, if_pos (by unfold INT_MAX; omega), ok_bind,
    Nat.two_mul]

/-- The states of the generator from which a ticket with property `P` is drawn. -/
def draws (n : Nat) (P : Nat → Prop) : Set UInt32 := {next | ∃ t next', rand next n = .ok (t, next') ∧ P t}

theorem ncard_draws {n : Nat} (hn : n + 1 ≤ 2 ^ 15) {P : Nat → Prop} (S : Finset Nat) (hS : ∀ t, P t ↔ t ∈ S) :
    (draws n P).ncard = ∑ v ∈ S, ((range (2 ^ 32)).filter fun y => y / (2 * (n + 1)) % (n + 1) = v).card := by
  have hinj : Function.Injective fun next : UInt32 => (next * 1103515245 + 12345).toNat :=
    fun x y h => advance_bijective.injective (UInt32.toNat_inj.mp h)
  have himage : (fun next : UInt32 => (next * 1103515245 + 12345).toNat) '' draws n P =
      ((range (2 ^ 32)).filter fun y => y / (2 * (n + 1)) % (n + 1) ∈ S : Finset Nat) := by
    ext y
    simp only [Set.mem_image, draws, Set.mem_ofPred_eq, rand_eq hn, Outcome.ok.injEq, Prod.mk.injEq, coe_filter, mem_range]
    constructor
    · rintro ⟨next, ⟨t, next', ⟨rfl, -⟩, ht⟩, rfl⟩
      exact ⟨UInt32.toNat_lt _, (hS _).mp ht⟩
    · rintro ⟨hlt, hmem⟩
      obtain ⟨next, hnext⟩ := advance_bijective.surjective (.ofNat y)
      have hy : (next * 1103515245 + 12345).toNat = y := by
        rw [show next * 1103515245 + 12345 = .ofNat y from hnext]
        exact UInt32.toNat_ofNat_of_lt' hlt
      exact ⟨next, ⟨_, _, ⟨rfl, rfl⟩, (hS _).mpr (hy.symm ▸ hmem)⟩, hy⟩
  have hsum := card_eq_sum_card_fiberwise (s := (range (2 ^ 32)).filter fun y => y / (2 * (n + 1)) % (n + 1) ∈ S) (t := S)
    (f := fun y => y / (2 * (n + 1)) % (n + 1)) fun y hy => (mem_filter.mp hy).2
  rw [← Set.ncard_image_of_injective _ hinj, himage, Set.ncard_coe_finset, hsum]
  refine sum_congr rfl fun v hv => congrArg card ?_
  rw [filter_filter]
  refine filter_congr fun y _ => ⟨fun h => h.2, fun h => ⟨h ▸ hv, h⟩⟩

theorem share_bounds {n v : Nat} (hv : v < n + 1) :
    |(((range (2 ^ 32)).filter fun y => y / (2 * (n + 1)) % (n + 1) = v).card : ℚ) - 2 ^ 32 / (n + 1)| ≤ (2 * (n + 1) : ℚ) := by
  obtain ⟨hlo, hhi⟩ := card_blocks (2 ^ 32) (b := 2 * (n + 1)) (by omega) hv
  generalize ((range (2 ^ 32)).filter fun y => y / (2 * (n + 1)) % (n + 1) = v).card = c at hlo hhi
  have hm : (0 : ℚ) < n + 1 := by positivity
  have hdiv := Nat.div_add_mod (2 ^ 32) (2 * (n + 1) * (n + 1))
  have hrem := Nat.mod_lt (2 ^ 32) (show 0 < 2 * (n + 1) * (n + 1) by positivity)
  generalize 2 ^ 32 / (2 * (n + 1) * (n + 1)) = q at hlo hhi hdiv
  generalize 2 ^ 32 % (2 * (n + 1) * (n + 1)) = r at hdiv hrem
  have hdiv' : (2 * (n + 1) * (n + 1) * q + r : ℚ) = 2 ^ 32 := by exact_mod_cast hdiv
  have hrem' : (r : ℚ) ≤ 2 * (n + 1) * (n + 1) := by exact_mod_cast hrem.le
  have hlo' : (2 * (n + 1) * q : ℚ) ≤ c := by exact_mod_cast hlo
  have hhi' : (c : ℚ) ≤ 2 * (n + 1) * q + 2 * (n + 1) := by exact_mod_cast hhi
  have hshare : (2 ^ 32 : ℚ) / (n + 1) = 2 * (n + 1) * q + r / (n + 1) := by
    rw [← hdiv']
    field_simp
  have hr : (r : ℚ) / (n + 1) ≤ 2 * (n + 1) := by
    rw [div_le_iff₀ hm]
    exact hrem'
  have hr' : (0 : ℚ) ≤ r / (n + 1) := by positivity
  rw [hshare, abs_le]
  constructor <;> linarith

/-- Over all states of the generator, the tickets from 0 to `n` are drawn almost equally often. -/
theorem rand_nearly_uniform (n : Nat) (hn : n + 1 ≤ 2 ^ 15) :
    (∃ step : UInt32 → UInt32, step.Bijective ∧ ∀ next, ∃ t ≤ n, rand next n = .ok (t, step next)) ∧
    (∀ a ≤ n, ∀ b ≤ n, (draws n (· = a)).ncard ≤ (draws n (· = b)).ncard + 2 * (n + 1)) ∧
    ∀ (table : Table) (w : ProcIdx), ticketsBelow table (w + 1) ≤ n + 1 →
      |((draws n (Owner table · w)).ncard : ℚ) - 2 ^ 32 * (table w).ntickets / (n + 1)| ≤ (2 * (n + 1) * (table w).ntickets : ℚ) := by
  refine ⟨⟨_, advance_bijective, fun next => ⟨_, ?_, rand_eq hn next⟩⟩, fun a ha b hb => ?_, fun table w hw => ?_⟩
  · exact Nat.le_of_lt_succ (Nat.mod_lt _ (Nat.succ_pos n))
  · rw [ncard_draws hn {a} fun t => by simp, ncard_draws hn {b} fun t => by simp, sum_singleton, sum_singleton]
    have ha' := (card_blocks (2 ^ 32) (b := 2 * (n + 1)) (by omega) (Nat.lt_succ_of_le ha)).2
    have hb' := (card_blocks (2 ^ 32) (b := 2 * (n + 1)) (by omega) (Nat.lt_succ_of_le hb)).1
    exact ha'.trans (Nat.add_le_add_right hb' _)
  · rw [ncard_draws hn (Ico (ticketsBelow table w) (ticketsBelow table (w + 1))) fun t => by simp [Owner]]
    have hcard : (Ico (ticketsBelow table w) (ticketsBelow table (w + 1))).card = (table w).ntickets := by
      rw [Nat.card_Ico, ticketsBelow_succ, Nat.add_sub_cancel_left]
    have hsum := (abs_sum_le_sum_abs _ _).trans (sum_le_card_nsmul (Ico (ticketsBelow table w) (ticketsBelow table (w + 1))) _ _
      fun v hv => share_bounds (n := n) ((mem_Ico.mp hv).2.trans_le hw))
    rw [hcard, sum_sub_distrib, sum_const, hcard, nsmul_eq_mul, nsmul_eq_mul] at hsum
    rw [Nat.cast_sum, mul_comm (2 ^ 32 : ℚ), mul_div_assoc, mul_comm (2 * ((n : ℚ) + 1))]
    exact hsum

/-- The tickets of one of three processes. -/
theorem rand_nearly_uniform_together : |((draws 31 (Owner together · 1)).ncard : ℚ) - 2 ^ 32 * (together 1).ntickets / ((31 : ℕ) + 1)| ≤
    (2 * ((31 : ℕ) + 1) * (together 1).ntickets : ℚ) :=
  (rand_nearly_uniform 31 (by decide)).2.2 together 1 (by decide)

end Generator

end Sched
end Xv6
