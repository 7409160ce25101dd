import Mathlib.Init

/-!
# Loops with fuel

A loop that need not end is a function of its fuel, without a result where the fuel does not suffice. More
fuel does not change a result, so that a loop returns at most one value.
-/

namespace Fuel

variable {α β : Type}

/-- The loop ends with the given value. -/
def Returns (f : Nat → Option α) (a : α) : Prop := ∃ fuel, f fuel = some a

def Mono (f : Nat → Option α) : Prop := ∀ fuel a, f fuel = some a → f (fuel + 1) = some a

variable {a : α} {f : Nat → Option α} {n : Nat}

theorem Mono.le (hf : Mono f) {m : Nat} (h : f n = some a) (hle : n ≤ m) : f m = some a := by
  induction hle with
  | refl => exact h
  | step _ ih => exact hf _ a ih

theorem Mono.returns_iff (hf : Mono f) {b : α} (h : f n = some a) : Returns f b ↔ a = b := by
  constructor
  · rintro ⟨m, hm⟩
    have hn := hf.le h (Nat.le_max_left n m)
    rw [hf.le hm (Nat.le_max_right n m)] at hn
    exact (Option.some.inj hn).symm
  · rintro rfl
    exact ⟨n, h⟩

theorem mono_const (x : Option α) : Mono fun _ => x := fun _ _ h => h

theorem Mono.bind {g : α → Nat → Option β} (hf : Mono f) (hg : ∀ a, Mono (g a)) :
    Mono fun fuel => f fuel >>= fun a => g a fuel := by
  intro fuel b h
  obtain ⟨a, ha, hb⟩ := Option.bind_eq_some_iff.mp h
  exact Option.bind_eq_some_iff.mpr ⟨a, hf fuel a ha, hg a fuel b hb⟩

theorem Mono.ite {p : Prop} [Decidable p] {g : Nat → Option α} (hf : Mono f) (hg : Mono g) :
    Mono fun fuel => if p then f fuel else g fuel := by
  by_cases hp : p
  · simpa only [if_pos hp] using hf
  · simpa only [if_neg hp] using hg

end Fuel
