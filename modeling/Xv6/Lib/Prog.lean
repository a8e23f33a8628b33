import Xv6.Lib.Outcome
import Mathlib.Logic.Function.Basic

/-! Programs that are made of atomic operations, interleaved with those of others, and what they own meanwhile. -/

/-- A program with a result of type `α`; an operation `o` answers with a value of type `Res o`. -/
inductive Prog (Op : Type) (Res : Op → Type) (α : Type) where
  | ret (a : α)
  /-- It waits for ever, or it stops the machine. -/
  | halt (why : Option String)
  | op (o : Op) (k : Res o → Prog Op Res α)

namespace Prog
variable {Op : Type} {Res : Op → Type} {α β : Type}

def bind (g : Prog Op Res α) (f : α → Prog Op Res β) : Prog Op Res β :=
  match g with
  | .ret a => f a
  | .halt why => .halt why
  | .op o k => .op o fun x => (k x).bind f

instance : Monad (Prog Op Res) where
  pure := .ret
  bind := bind

def call (o : Op) : Prog Op Res (Res o) := .op o .ret

/-- Code that works on local data only. -/
def lift : Outcome α → Prog Op Res α
  | .ok a => .ret a
  | .sleep => .halt none
  | .panic msg => .halt (some msg)

/-- The program alone, on a machine on whose state the operations act. -/
def run {σ : Type} (act : (o : Op) → σ → Outcome (Res o × σ)) : Prog Op Res α → σ → Outcome (α × σ)
  | .ret a, s => .ok (a, s)
  | .halt none, _ => .sleep
  | .halt (some msg), _ => .panic msg
  | .op o k, s => act o s >>= fun r => (k r.1).run act r.2

theorem run_bind {σ : Type} {act : (o : Op) → σ → Outcome (Res o × σ)} {s : σ} {g : Prog Op Res α} {f : α → Prog Op Res β} :
    (g >>= f).run act s = g.run act s >>= fun r => (f r.1).run act r.2 := by
  induction g generalizing s with
  | ret a => rfl
  | halt why => cases why <;> rfl
  | op o k ih =>
    change (act o s >>= fun r => (k r.1 >>= f).run act r.2) = (act o s >>= fun r => (k r.1).run act r.2) >>= _
    cases act o s with
    | sleep | panic msg => rfl
    | ok r => exact ih r.1

/-! ### What a thread owns -/

/-- The resources of a thread: those an operation needs, the answers it can get with them, and those it has then. -/
structure Discipline (Op : Type) (Res : Op → Type) (ρ : Type) where
  need : Op → ρ → Prop
  gives : (o : Op) → ρ → Res o → Prop
  after : (o : Op) → Res o → ρ → ρ

section Keeps
variable {ρ : Type} {D : Discipline Op Res ρ}

/-- With the resources `r` the program makes no operation without those it needs, and ends in `post`. -/
def Keeps (D : Discipline Op Res ρ) : Prog Op Res α → ρ → (α → ρ → Prop) → Prop
  | .ret a, r, post => post a r
  | .halt _, _, _ => True
  | .op o k, r, post => D.need o r ∧ ∀ x, D.gives o r x → Keeps D (k x) (D.after o x r) post

variable {r : ρ} {post post' : α → ρ → Prop} {g : Prog Op Res α}

theorem Keeps.mono (h : g.Keeps D r post) (hpost : ∀ a r, post a r → post' a r) : g.Keeps D r post' := by
  induction g generalizing r with
  | ret a => exact hpost a r h
  | halt why => trivial
  | op o k ih => exact ⟨h.1, fun x hx => ih x (h.2 x hx)⟩

theorem Keeps.bind {f : α → Prog Op Res β} {post' : β → ρ → Prop} (h : g.Keeps D r post)
    (hf : ∀ a r, post a r → (f a).Keeps D r post') : (g >>= f).Keeps D r post' := by
  induction g generalizing r with
  | ret a => exact hf a r h
  | halt why => trivial
  | op o k ih => exact ⟨h.1, fun x hx => ih x (h.2 x hx)⟩

theorem keeps_bind {f : α → Prog Op Res β} {post : β → ρ → Prop} :
    (g >>= f).Keeps D r post ↔ g.Keeps D r fun a r => (f a).Keeps D r post := by
  induction g generalizing r with
  | ret a => exact Iff.rfl
  | halt why => exact Iff.rfl
  | op o k ih => exact and_congr_right fun _ => forall_congr' fun x => imp_congr_right fun _ => ih x

/-! ### What a program does among others -/

/-- An operation that was made, and the states before and after it. -/
structure Made (Op : Type) (σ : Type) where
  op : Op
  before : σ
  after : σ

/-- The operations that a program has made so far. Others may do anything between two of them. -/
inductive Trace {σ : Type} (act : (o : Op) → σ → Outcome (Res o × σ)) : Prog Op Res α → List (Made Op σ) → Prop
  | nil (g : Prog Op Res α) : Trace act g []
  | op {o : Op} {k : Res o → Prog Op Res α} {s s' : σ} {x : Res o} {tr : List (Made Op σ)} (hact : act o s = .ok (x, s'))
      (hrest : Trace act (k x) tr) : Trace act (.op o k) (⟨o, s, s'⟩ :: tr)

section Trace
variable {σ : Type} {act : (o : Op) → σ → Outcome (Res o × σ)} {tr tr' : List (Made Op σ)}

theorem Trace.cons_inv {m : Made Op σ} (h : Trace act g (m :: tr)) (hk : g.Keeps D r post) :
    ∃ (x : Res m.op) (g' : Prog Op Res α), act m.op m.before = .ok (x, m.after) ∧ Trace act g' tr ∧ D.need m.op r ∧
      (D.gives m.op r x → g'.Keeps D (D.after m.op x r) post) := by
  cases h with
  | op hact hrest => exact ⟨_, _, hact, hrest, hk.1, hk.2 _⟩

theorem Trace.drop (hgives : ∀ o r x, D.gives o r x) : ∀ {tr : List (Made Op σ)} {g : Prog Op Res α} {r : ρ},
    Trace act g (tr ++ tr') → g.Keeps D r post → ∃ g' r', Trace act g' tr' ∧ g'.Keeps D r' post
  | [], g, r, h, hk => ⟨g, r, h, hk⟩
  | m :: tr, g, r, h, hk => by
    obtain ⟨x, g', -, hrest, -, hk'⟩ := h.cons_inv hk
    exact hrest.drop hgives (hk' (hgives _ _ _))

end Trace

end Keeps
end Prog
