/-!
Computations that may fail, taken apart: one that succeeds is made of steps that succeed. What is
told of a computation whether it succeeds or fails is put together in the same way (`Yields`). Two
computations that proceed side by side are compared by what they answer (`Related`).
-/

namespace Reshard

namespace Outcome

variable {ε α β : Type} {x : Except ε α} {a : α} {b : β}

theorem bind_eq_ok {f : α → Except ε β} :
    (x >>= f) = .ok b ↔ ∃ a, x = .ok a ∧ f a = .ok b := by
  cases x with
  | error e =>
    constructor
    · intro h
      cases h
    · rintro ⟨a, ha, -⟩
      cases ha
  | ok a =>
    constructor
    · intro h
      exact ⟨a, rfl, h⟩
    · rintro ⟨a', ha, h⟩
      cases ha
      exact h

theorem map_eq_ok {f : α → β} : x.map f = .ok b ↔ ∃ a, x = .ok a ∧ f a = b := by
  cases x with
  | error e =>
    constructor
    · intro h
      cases h
    · rintro ⟨a, ha, -⟩
      cases ha
  | ok a => simp [Except.map]

/-- An answer is given after a check that passes. -/
theorem after_eq_ok {check : Except ε Unit} {b : α} :
    (do check; return a : Except ε α) = .ok b ↔ check = .ok () ∧ a = b := by
  rw [bind_eq_ok]
  constructor
  · rintro ⟨⟨⟩, hcheck, heq⟩
    exact ⟨hcheck, Except.ok.inj heq⟩
  · rintro ⟨hcheck, rfl⟩
    exact ⟨(), hcheck, rfl⟩

theorem eq_ok_of_toOption (h : x.toOption = some a) : x = .ok a := by
  cases x with
  | error e => nomatch h
  | ok a' => rw [Option.some.inj h]

/-- What every step keeps is true after all of them. -/
theorem of_foldlM {I : β → Prop} {f : β → α → Except ε β} {l : List α}
    (hstep : ∀ a ∈ l, ∀ b b', I b → f b a = .ok b' → I b') {b' : β} (hb : I b)
    (h : l.foldlM f b = .ok b') : I b' := by
  induction l generalizing b with
  | nil =>
    cases h
    exact hb
  | cons a rest ih =>
    rw [List.foldlM_cons] at h
    obtain ⟨next, hnext, h⟩ := bind_eq_ok.mp h
    exact ih (fun a' ha' => hstep a' (List.mem_cons_of_mem a ha'))
      (hstep a List.mem_cons_self b next hb hnext) h

/-- The computation succeeds with an answer that has `p`, or it fails and `why` is the case. -/
inductive Yields (p : α → Prop) (why : Prop) : Except ε α → Prop
  | ok {a : α} : p a → Yields p why (.ok a)
  | error {e : ε} : why → Yields p why (.error e)

section

variable {p : α → Prop} {q : β → Prop} {why : Prop}

theorem Yields.bind {f : α → Except ε β} (h : Yields p why x)
    (hf : ∀ a, p a → Yields q why (f a)) : Yields q why (x >>= f) := by
  cases h with
  | ok ha => exact hf _ ha
  | error hwhy => exact .error hwhy

theorem Yields.imp {q : α → Prop} (h : Yields p why x) (himp : ∀ a, p a → q a) :
    Yields q why x := by
  cases h with
  | ok ha => exact .ok (himp _ ha)
  | error hwhy => exact .error hwhy

theorem Yields.weaken {why' : Prop} (h : Yields p why x) (himp : why → why') :
    Yields p why' x := by
  cases h with
  | ok ha => exact .ok ha
  | error hwhy => exact .error (himp hwhy)

theorem Yields.of_eq_ok {a : α} (h : Yields p why x) (heq : x = .ok a) : p a := by
  subst heq
  cases h with
  | ok ha => exact ha

theorem Yields.exists_ok (h : Yields p why x) (hnot : ¬ why) : ∃ a, x = .ok a ∧ p a := by
  cases h with
  | ok ha => exact ⟨_, rfl, ha⟩
  | error hwhy => exact absurd hwhy hnot

end

/-! ## Side by side -/

/-- Both computations succeed, with answers that are related. -/
def Related {α β : Type} (r : α → β → Prop) (x : Except ε α) (y : Except ε β) : Prop :=
  ∃ a b, x = .ok a ∧ y = .ok b ∧ r a b

section

variable {α α' β β' : Type} {r : α → α' → Prop} {s : β → β' → Prop}
  {x : Except ε α} {x' : Except ε α'}

theorem Related.ok {a : α} {a' : α'} (h : r a a') :
    Related r (.ok a : Except ε α) (.ok a' : Except ε α') :=
  ⟨a, a', rfl, rfl, h⟩

theorem Related.bind {f : α → Except ε β} {f' : α' → Except ε β'} (h : Related r x x')
    (hf : ∀ a a', r a a' → Related s (f a) (f' a')) : Related s (x >>= f) (x' >>= f') := by
  obtain ⟨a, a', rfl, rfl, hr⟩ := h
  exact hf a a' hr

theorem Related.map {f : α → β} {f' : α' → β'} (h : Related r x x')
    (hf : ∀ a a', r a a' → s (f a) (f' a')) : Related s (x.map f) (x'.map f') := by
  obtain ⟨a, a', rfl, rfl, hr⟩ := h
  exact .ok (hf a a' hr)

end

end Outcome

end Reshard
