import Xv6.Lib.Outcome

/-! Code that leaves a trace of what it does on the way, also when it does not get to its end. -/

structure Traced (ρ α : Type) where
  trace : List ρ
  out : Outcome α

namespace Traced
variable {ρ α β : Type}

def bind (x : Traced ρ α) (f : α → Traced ρ β) : Traced ρ β :=
  match x.out with
  | .ok a => ⟨x.trace ++ (f a).trace, (f a).out⟩
  | .sleep => ⟨x.trace, .sleep⟩
  | .panic msg => ⟨x.trace, .panic msg⟩

instance : Monad (Traced ρ) where
  pure a := ⟨[], .ok a⟩
  bind := Traced.bind

/-- Code that leaves no trace. -/
def lift (x : Outcome α) : Traced ρ α := ⟨[], x⟩

def tell (e : ρ) : Traced ρ Unit := ⟨[e], .ok ()⟩

@[simp] theorem out_pure (a : α) : (pure a : Traced ρ α).out = .ok a := rfl

@[simp] theorem out_lift (x : Outcome α) : (lift x : Traced ρ α).out = x := rfl

@[simp] theorem out_tell (e : ρ) : (tell e).out = .ok () := rfl

@[simp] theorem out_bind (x : Traced ρ α) (f : α → Traced ρ β) : (x >>= f).out = x.out >>= fun a => (f a).out := by
  show (Traced.bind x f).out = _
  unfold Traced.bind
  cases x.out <;> rfl

theorem trace_bind_ok {x : Traced ρ α} {a : α} (h : x.out = .ok a) (f : α → Traced ρ β) :
    (x >>= f).trace = x.trace ++ (f a).trace := by
  show (Traced.bind x f).trace = _
  unfold Traced.bind
  rw [h]

theorem ok_bind (trace : List ρ) (a : α) (f : α → Traced ρ β) : (⟨trace, .ok a⟩ >>= f : Traced ρ β) = ⟨trace ++ (f a).trace, (f a).out⟩ := rfl

theorem lift_bind (a : α) (f : α → Traced ρ β) : (lift (.ok a) >>= f) = f a := rfl

theorem bind_assoc (x : Traced ρ α) (f : α → Traced ρ β) {γ : Type} (g : β → Traced ρ γ) :
    (x >>= f) >>= g = x >>= fun a => f a >>= g := by
  obtain ⟨trace, out⟩ := x
  cases out with
  | sleep | panic msg => rfl
  | ok a =>
    show Traced.bind ⟨trace ++ (f a).trace, (f a).out⟩ g = ⟨trace ++ (Traced.bind (f a) g).trace, (Traced.bind (f a) g).out⟩
    unfold Traced.bind
    cases (f a).out with
    | sleep | panic msg => rfl
    | ok c => exact congrArg (Traced.mk · (g c).out) (List.append_assoc ..)

theorem mem_bind {x : Traced ρ α} {e : ρ} (h : e ∈ x.trace) (f : α → Traced ρ β) : e ∈ (x >>= f).trace := by
  obtain ⟨trace, out⟩ := x
  cases out with
  | ok a => exact List.mem_append_left _ h
  | sleep | panic msg => exact h

/-- All events satisfy `ev`; a value satisfies `post`, any other outcome `bad`. -/
structure Spec (x : Traced ρ α) (ev : ρ → Prop) (post : α → Prop) (bad : Option String → Prop) : Prop where
  events : ∀ e ∈ x.trace, ev e
  out : x.out.Spec post bad

section Spec
variable {x : Traced ρ α} {ev : ρ → Prop} {post post' : α → Prop} {bad bad' : Option String → Prop}

theorem Spec.bind {f : α → Traced ρ β} {post' : β → Prop} (h : x.Spec ev post bad) (hf : ∀ a, post a → (f a).Spec ev post' bad) :
    (x >>= f).Spec ev post' bad := by
  obtain ⟨trace, out⟩ := x
  obtain ⟨hev, hout⟩ := h
  cases out with
  | ok a =>
    have hrest := hf a hout
    refine ⟨fun e he => ?_, hrest.out⟩
    exact (List.mem_append.mp he).elim (hev e) (hrest.events e)
  | sleep | panic msg => exact ⟨hev, hout⟩

theorem Spec.lift {x : Outcome α} (h : x.Spec post bad) : (lift x : Traced ρ α).Spec ev post bad :=
  ⟨fun _ he => absurd he List.not_mem_nil, h⟩

theorem Spec.pure {a : α} (h : post a) : (pure a : Traced ρ α).Spec ev post bad :=
  ⟨fun _ he => absurd he List.not_mem_nil, h⟩

theorem Spec.tell {e : ρ} (h : ev e) : (tell e).Spec ev (fun _ => True) bad :=
  ⟨fun _ he => List.mem_singleton.mp he ▸ h, trivial⟩

theorem Spec.mono (h : x.Spec ev post bad) (hpost : ∀ a, post a → post' a) (hbad : ∀ o, bad o → bad' o) :
    x.Spec ev post' bad' := ⟨h.events, h.out.mono hpost hbad⟩

theorem Spec.self (h : x.Spec ev post bad) : x.Spec ev (fun a => post a ∧ x.out = .ok a) bad := ⟨h.events, h.out.self⟩

end Spec

end Traced
