import Mathlib.Logic.Relation

/-! What a piece of kernel code does when it is run once (go on, wait, or stop the machine), and the
    states a machine built from such pieces can reach. -/

universe u v

/-- The result of one atomic piece of code: it goes on with a value, it has to sleep and be tried again
    later, or it stops the whole machine. -/
inductive Outcome (α : Type u) where
  | ok (a : α)
  | sleep
  | panic (msg : String)
  deriving DecidableEq, Repr

namespace Outcome
variable {α β : Type u}

def bind (x : Outcome α) (f : α → Outcome β) : Outcome β :=
  match x with
  | .ok a => f a
  | .sleep => .sleep
  | .panic msg => .panic msg

instance : Monad Outcome where
  pure := .ok
  bind := Outcome.bind

@[simp] theorem pure_eq (a : α) : (pure a : Outcome α) = .ok a := rfl

@[simp] theorem ok_bind (a : α) (f : α → Outcome β) : (Outcome.ok a >>= f) = f a := rfl

@[simp] theorem sleep_bind (f : α → Outcome β) : ((.sleep : Outcome α) >>= f) = .sleep := rfl

@[simp] theorem panic_bind (msg : String) (f : α → Outcome β) : ((.panic msg : Outcome α) >>= f) = .panic msg := rfl

theorem bind_eq_ok {x : Outcome α} {f : α → Outcome β} {b : β} :
    x >>= f = .ok b ↔ ∃ a, x = .ok a ∧ f a = .ok b := by
  cases x <;> simp

theorem bind_pure_eq_panic {x : Outcome α} {b : β} {msg : String} : (x >>= fun _ => pure b) = .panic msg ↔ x = .panic msg := by
  cases x <;> simp

theorem ite_sleep_eq_ok {c : Prop} [Decidable c] {x : Outcome α} {a : α} : (if c then x else .sleep) = .ok a ↔ c ∧ x = .ok a := by
  split <;> simp_all

theorem ite_panic_eq_ok {c : Prop} [Decidable c] {x : Outcome α} {msg : String} {a : α} :
    (if c then .panic msg else x) = .ok a ↔ ¬c ∧ x = .ok a := by
  split <;> simp_all

/-! A run of the code tells whether it goes on, and with what value. -/

instance (x : Outcome α) (P : α → Prop) [DecidablePred P] : Decidable (∃ a, x = .ok a ∧ P a) :=
  match x with
  | .ok a => decidable_of_iff (P a) (by simp)
  | .sleep | .panic _ => isFalse (by simp)

instance (x : Outcome α) : Decidable (∃ a, x = .ok a) :=
  match x with
  | .ok a => isTrue ⟨a, rfl⟩
  | .sleep | .panic _ => isFalse (by simp)

/-! Postconditions. `bad` judges the outcomes that are no value: `none` is to sleep, `some msg` a panic. -/

/-- A value satisfies `post`, any other outcome `bad`. -/
def Spec (x : Outcome α) (post : α → Prop) (bad : Option String → Prop) : Prop :=
  match x with
  | .ok a => post a
  | .sleep => bad none
  | .panic msg => bad (some msg)

section Spec
variable {x : Outcome α} {post post' : α → Prop} {bad bad' : Option String → Prop}

@[simp] theorem spec_ok {a : α} : Spec (.ok a) post bad ↔ post a := Iff.rfl

@[simp] theorem spec_panic {msg : String} : Spec (.panic msg : Outcome α) post bad ↔ bad (some msg) := Iff.rfl

@[simp] theorem spec_sleep : Spec (.sleep : Outcome α) post bad ↔ bad none := Iff.rfl

theorem Spec.bind {f : α → Outcome β} {post' : β → Prop} (h : x.Spec post bad) (hf : ∀ a, post a → (f a).Spec post' bad) :
    (x >>= f).Spec post' bad := by
  cases x with
  | ok a => exact hf a h
  | sleep => exact h
  | panic msg => exact h

theorem Spec.mono (h : x.Spec post bad) (hpost : ∀ a, post a → post' a) (hbad : ∀ o, bad o → bad' o) :
    x.Spec post' bad' := by
  cases x with
  | ok a => exact hpost a h
  | sleep => exact hbad none h
  | panic msg => exact hbad (some msg) h

theorem Spec.of_eq_ok {a : α} (h : x.Spec post bad) (hx : x = .ok a) : post a := by
  subst hx
  exact h

theorem Spec.exists_ok (h : x.Spec post bad) (hbad : ∀ o, ¬bad o) : ∃ a, x = .ok a ∧ post a := by
  cases x with
  | ok a => exact ⟨a, rfl, h⟩
  | sleep => exact absurd h (hbad none)
  | panic msg => exact absurd h (hbad (some msg))

/-- If it goes on, then with a value that satisfies `post`. -/
abbrev Ensures (x : Outcome α) (post : α → Prop) : Prop := x.Spec post fun _ => True

theorem ensures_iff : x.Ensures post ↔ ∀ a, x = .ok a → post a := by
  cases x <;> simp [Ensures]

theorem ensures_true (x : Outcome α) : x.Ensures fun _ => True := ensures_iff.mpr fun _ _ => trivial

theorem Spec.ensures (h : x.Spec post bad) : x.Ensures post := h.mono (fun _ h => h) fun _ _ => trivial

theorem Ensures.and (h : x.Ensures post) (h' : x.Ensures post') : x.Ensures fun a => post a ∧ post' a :=
  ensures_iff.mpr fun a ha => ⟨ensures_iff.mp h a ha, ensures_iff.mp h' a ha⟩

theorem Spec.and (h : x.Spec post bad) (h' : x.Ensures post') : x.Spec (fun a => post a ∧ post' a) bad := by
  cases x with
  | ok a => exact ⟨h, h'⟩
  | sleep | panic msg => exact h

theorem Spec.self (h : x.Spec post bad) : x.Spec (fun a => post a ∧ x = .ok a) bad := h.and (ensures_iff.mpr fun _ heq => heq)

theorem Ensures.mono (h : x.Ensures post) (hpost : ∀ a, post a → post' a) : x.Ensures post' :=
  Spec.mono h hpost fun _ h => h

theorem Ensures.bind {f : α → Outcome β} {post' : β → Prop} (h : x.Ensures post) (hf : ∀ a, post a → (f a).Ensures post') :
    (x >>= f).Ensures post' := Spec.bind h hf

theorem Spec.ne_panic {msg : String} (h : x.Spec post bad) (hbad : ¬bad (some msg)) : x ≠ .panic msg := by
  rintro rfl
  exact hbad h

end Spec

/-! Two pieces of code that do the same -/

/-- Both go on, with related values, or neither does. -/
def Matches (R : α → β → Prop) (x : Outcome α) (y : Outcome β) : Prop :=
  match x, y with
  | .ok a, .ok b => R a b
  | .ok _, _ => False
  | _, .ok _ => False
  | _, _ => True

section Matches
variable {γ δ : Type u} {R : α → β → Prop} {S : γ → δ → Prop} {x : Outcome α} {y : Outcome β}

theorem Matches.bind {f : α → Outcome γ} {g : β → Outcome δ} (h : Matches R x y) (hf : ∀ a b, R a b → Matches S (f a) (g b)) :
    Matches S (x >>= f) (y >>= g) := by
  cases x with
  | ok a =>
    cases y with
    | ok b => exact hf a b h
    | sleep | panic msg => exact h.elim
  | sleep | panic msg =>
    cases y with
    | ok b => exact h.elim
    | sleep | panic msg => trivial

theorem Matches.and {post : β → Prop} {bad : Option String → Prop} (h : Matches R x y) (hy : y.Spec post bad) :
    Matches (fun a b => R a b ∧ post b) x y := by
  cases x with
  | ok a =>
    cases y with
    | ok b => exact ⟨h, hy⟩
    | sleep | panic msg => exact h.elim
  | sleep | panic msg =>
    cases y with
    | ok b => exact h.elim
    | sleep | panic msg => trivial

theorem Matches.spec {post : β → Prop} {bad : Option String → Prop} (h : Matches R x y) (hy : y.Spec post bad) :
    x.Spec (fun a => ∃ b, R a b ∧ post b) fun _ => ∃ o, bad o := by
  cases x with
  | ok a =>
    cases y with
    | ok b => exact ⟨b, h, hy⟩
    | sleep | panic msg => exact h.elim
  | sleep | panic msg =>
    cases y with
    | ok b => exact h.elim
    | sleep | panic msg => exact ⟨_, hy⟩

end Matches

end Outcome

/-! ### Machines -/

namespace Machine
variable {σ : Type u} {ι : Type v}

/-- The states reached from `init` by steps that go on, each of them allowed by `guard`. -/
inductive Reachable (step : σ → ι → Outcome σ) (guard : σ → ι → Prop) (init : σ → Prop) : σ → Prop
  | init {s : σ} (h : init s) : Reachable step guard init s
  | step {s t : σ} (a : ι) (hr : Reachable step guard init s) (hg : guard s a) (hs : step s a = .ok t) :
      Reachable step guard init t

variable {step : σ → ι → Outcome σ} {guard : σ → ι → Prop} {init : σ → Prop}

/-- What holds initially and is kept by every allowed step holds in every reachable state. -/
theorem Reachable.invariant {P : σ → Prop} {s : σ} (h : Reachable step guard init s) (base : ∀ s, init s → P s)
    (keep : ∀ s a t, P s → guard s a → step s a = .ok t → P t) : P s := by
  induction h with
  | init h => exact base _ h
  | step a _ hg hs ih => exact keep _ a _ ih hg hs

theorem Reachable.mono {guard' : σ → ι → Prop} {s : σ} (h : Reachable step guard init s)
    (imp : ∀ s a, guard s a → guard' s a) : Reachable step guard' init s := by
  induction h with
  | init h => exact .init h
  | step a _ hg hs ih => exact .step a ih (imp _ _ hg) hs

/-- Where the guard allows a step, two machines do the same: so the runs that it allows are runs of both. -/
theorem Reachable.congr {step' : σ → ι → Outcome σ} {s : σ} (h : Reachable step guard init s)
    (heq : ∀ s a, guard s a → step s a = step' s a) : Reachable step' guard init s := by
  induction h with
  | init h => exact .init h
  | step a _ hg hs ih => exact .step a ih hg (heq _ a hg ▸ hs)

def runList (step : σ → ι → Outcome σ) : σ → List ι → Outcome σ
  | s, [] => .ok s
  | s, a :: as => step s a >>= fun t => runList step t as

theorem runList_append (s : σ) (as : List ι) (a : ι) :
    runList step s (as ++ [a]) = runList step s as >>= fun t => step t a := by
  induction as generalizing s with
  | nil =>
    change step s a >>= Outcome.ok = step s a
    cases step s a <;> rfl
  | cons b as ih =>
    change (step s b >>= fun t => runList step t (as ++ [a])) = (step s b >>= fun t => runList step t as) >>= fun t => step t a
    cases step s b with
    | ok t => exact ih t
    | sleep | panic msg => rfl

theorem Reachable.runList (hg : ∀ s a, guard s a) {as : List ι} :
    ∀ {s t : σ}, Reachable step guard init s → Machine.runList step s as = .ok t → Reachable step guard init t := by
  induction as with
  | nil =>
    intro s t hr h
    cases h
    exact hr
  | cons a as ih =>
    intro s t hr h
    obtain ⟨u, hu, h⟩ := Outcome.bind_eq_ok.mp h
    exact ih (.step a hr (hg s a) hu) h

theorem Reachable.runGuarded {g : σ → ι → Bool} (hg : ∀ s a, g s a = true → guard s a) {as : List ι} :
    ∀ {s t : σ}, Reachable step guard init s →
      Machine.runList (fun s a => if g s a then step s a else .sleep) s as = .ok t → Reachable step guard init t := by
  induction as with
  | nil =>
    intro s t hr h
    cases h
    exact hr
  | cons a as ih =>
    intro s t hr h
    obtain ⟨u, hu, h⟩ := Outcome.bind_eq_ok.mp h
    dsimp only at hu
    split at hu
    · rename_i ha
      exact ih (.step a hr (hg s a ha) hu) h
    · cases hu

end Machine
