import Mathlib.Order.Defs.PartialOrder

/-!
# Effects of computations with a state and exceptions

An `Effect` relates the states before and after a computation and restricts what it throws. `Ensures`
is closed under the operations of the monad, so that it is read off the primitives a computation is made
of. `run_bind_ok` takes a successful run apart. `OnOk` is a property of results only.
-/

structure Effect (σ ε : Type) where
  rel : σ → σ → Prop
  err : ε → Prop
  refl : ∀ s, rel s s
  trans : ∀ s t u, rel s t → rel t u → rel s u

variable {σ ε α β : Type}

def Ensures (fx : Effect σ ε) (m : StateT σ (Except ε) α) : Prop :=
  ∀ s, (∀ a t, m.run s = .ok (a, t) → fx.rel s t) ∧ ∀ e, m.run s = .error e → fx.err e

variable {b : β} {x : Except ε α} {e : ε} {m : StateT σ (Except ε) α} {s : σ}

theorem Except.bind_eq_ok {f : α → Except ε β} : x >>= f = .ok b ↔ ∃ a, x = .ok a ∧ f a = .ok b := by
  cases x with
  | error e =>
    constructor
    · intro h
      cases h
    · rintro ⟨a, h, -⟩
      cases h
  | ok a =>
    constructor
    · intro h
      exact ⟨a, rfl, h⟩
    · rintro ⟨_, h, hf⟩
      cases h
      exact hf

theorem Except.bind_eq_error {f : α → Except ε β} :
    x >>= f = .error e ↔ x = .error e ∨ ∃ a, x = .ok a ∧ f a = .error e := by
  cases x with
  | error e' =>
    constructor
    · intro h
      cases h
      exact .inl rfl
    · rintro (h | ⟨a, h, -⟩)
      · cases h
        rfl
      · cases h
  | ok a =>
    constructor
    · intro h
      exact .inr ⟨a, rfl, h⟩
    · rintro (h | ⟨_, h, hf⟩)
      · cases h
      · cases h
        exact hf

theorem run_bind_ok {f : α → StateT σ (Except ε) β} {t : σ} :
    (m >>= f).run s = .ok (b, t) ↔ ∃ a s', m.run s = .ok (a, s') ∧ (f a).run s' = .ok (b, t) := by
  rw [StateT.run_bind, Except.bind_eq_ok, Prod.exists]

theorem run_bind_error {f : α → StateT σ (Except ε) β} :
    (m >>= f).run s = .error e ↔
      m.run s = .error e ∨ ∃ a s', m.run s = .ok (a, s') ∧ (f a).run s' = .error e := by
  rw [StateT.run_bind, Except.bind_eq_error, Prod.exists]

theorem run_guard_ok {p : Prop} [Decidable p] {a b : α} {t : σ} :
    (if p then throw e else pure a : StateT σ (Except ε) α).run s = .ok (b, t) ↔ ¬p ∧ b = a ∧ t = s := by
  split
  next h =>
    constructor
    · intro h'
      cases h'
    · rintro ⟨h', -⟩
      exact absurd h h'
  next h =>
    constructor
    · intro h'
      cases h'
      exact ⟨h, rfl, rfl⟩
    · rintro ⟨-, rfl, rfl⟩
      rfl

namespace Ensures

variable {fx : Effect σ ε} {m : StateT σ (Except ε) α} {f : α → StateT σ (Except ε) β} {s t : σ}

theorem rel {a : α} (h : Ensures fx m) (hm : m.run s = .ok (a, t)) : fx.rel s t := (h s).1 a t hm

variable {e : ε}

theorem err (h : Ensures fx m) (hm : m.run s = .error e) : fx.err e := (h s).2 e hm

theorem modifyGet {g : σ → α × σ} (hg : ∀ s, fx.rel s (g s).2) :
    Ensures fx (MonadStateOf.modifyGet g : StateT σ (Except ε) α) := by
  intro s
  constructor
  · intro b t h
    have hs : g s = (b, t) := Except.ok.inj h
    have := hg s
    rwa [hs] at this
  · intro e h
    cases h

theorem pure (a : α) : Ensures fx (Pure.pure a) := modifyGet (g := fun s => (a, s)) fx.refl

theorem get : Ensures fx (MonadState.get : StateT σ (Except ε) σ) := modifyGet (g := fun s => (s, s)) fx.refl

theorem throw (he : fx.err e) : Ensures fx (MonadExcept.throw e : StateT σ (Except ε) α) := by
  intro s
  constructor
  · intro b t h
    cases h
  · intro e' h
    cases h
    exact he

theorem bind (hm : Ensures fx m) (hf : ∀ a, Ensures fx (f a)) : Ensures fx (m >>= f) := by
  intro s
  constructor
  · intro b t h
    obtain ⟨a, s', ha, hb⟩ := run_bind_ok.mp h
    exact fx.trans _ _ _ (hm.rel ha) ((hf a).rel hb)
  · intro e h
    rcases run_bind_error.mp h with h | ⟨a, s', -, h⟩
    · exact hm.err h
    · exact (hf a).err h

theorem ite {p : Prop} [Decidable p] {m' : StateT σ (Except ε) α} (hm : p → Ensures fx m)
    (hm' : ¬p → Ensures fx m') : Ensures fx (if p then m else m') := by
  split
  next h => exact hm h
  next h => exact hm' h

theorem modify {g : σ → σ} (hg : ∀ s, fx.rel s (g s)) :
    Ensures fx (MonadStateOf.modifyGet fun s => ((), g s) : StateT σ (Except ε) PUnit) :=
  modifyGet hg

end Ensures

/-- `q` holds of the result, if there is one. -/
def OnOk (q : α → Prop) (r : Except ε α) : Prop := ∀ a, r = .ok a → q a

namespace OnOk

variable {q q' : α → Prop} {r : Except ε α}

@[simp] theorem ok {a : α} : OnOk q (.ok a : Except ε α) ↔ q a := by
  constructor
  · intro h
    exact h a rfl
  · intro h b hb
    cases hb
    exact h

@[simp] theorem error {e : ε} : OnOk q (.error e : Except ε α) := by
  intro a h
  cases h

theorem imp (h : OnOk q r) (hq : ∀ a, q a → q' a) : OnOk q' r := fun a ha => hq a (h a ha)

variable {q : β → Prop}

theorem map {f : α → β} (h : OnOk (fun a => q (f a)) r) : OnOk q (r.map f) := by
  cases r with
  | error e => exact error
  | ok a =>
    have ha : q (f a) := h a rfl
    exact ok.mpr ha

theorem bind {f : α → Except ε β} (h : OnOk (fun a => OnOk q (f a)) r) : OnOk q (r.bind f) := by
  cases r with
  | error e => exact error
  | ok a => exact h a rfl

end OnOk
