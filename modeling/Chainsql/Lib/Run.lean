import Mathlib.Data.List.Induction

/-!
# Runs of a deterministic system

A system is a step function from a state and an action to the next state. A run is a list of actions.
`Along` states that a condition on the state and the action holds at every step of a run; its rules
carry an invariant, or a preorder between states, from one step to the whole run. `kept` lists the
actions of a run that were accepted.
-/

namespace Run

variable {σ α : Type*} {step : σ → α → σ} {ok : σ → α → Prop}

def final (step : σ → α → σ) (s : σ) (actions : List α) : σ := actions.foldl step s

/-- The condition `ok` holds at every step of the run, in the state the step starts from. -/
def Along (step : σ → α → σ) (ok : σ → α → Prop) : σ → List α → Prop
  | _, [] => True
  | s, a :: rest => ok s a ∧ Along step ok (step s a) rest

instance decidableAlong [∀ s a, Decidable (ok s a)] :
    (s : σ) → (actions : List α) → Decidable (Along step ok s actions)
  | _, [] => inferInstanceAs (Decidable True)
  | s, a :: rest =>
    have := decidableAlong (step s a) rest
    inferInstanceAs (Decidable (ok s a ∧ Along step ok (step s a) rest))

variable {s : σ} {a : α} {actions later : List α}

@[simp] theorem final_nil : final step s [] = s := rfl

@[simp] theorem final_cons : final step s (a :: actions) = final step (step s a) actions := rfl

theorem final_append : final step s (actions ++ later) = final step (final step s actions) later :=
  List.foldl_append

theorem along_append :
    Along step ok s (actions ++ later)
      ↔ Along step ok s actions ∧ Along step ok (final step s actions) later := by
  induction actions generalizing s with
  | nil => simp [Along]
  | cons a actions ih => simp [Along, ih, and_assoc]

variable {inv : σ → Prop}

/-- What every permitted step preserves holds at the end of a permitted run. -/
theorem Along.invariant (hrun : Along step ok s actions) (hinit : inv s)
    (hstep : ∀ s a, inv s → ok s a → inv (step s a)) : inv (final step s actions) := by
  induction actions generalizing s with
  | nil => exact hinit
  | cons a actions ih => exact ih hrun.2 (hstep s a hinit hrun.1)

/-- A relation to a second system that every step permitted there preserves relates the two runs. -/
theorem Along.simulates {τ : Type*} {step' : τ → α → τ} {ok : τ → α → Prop} {rel : σ → τ → Prop} {t : τ}
    (hrun : Along step' ok t actions) (hinit : rel s t)
    (hstep : ∀ s t a, rel s t → ok t a → rel (step s a) (step' t a)) :
    rel (final step s actions) (final step' t actions) := by
  induction actions generalizing s t with
  | nil => exact hinit
  | cons a actions ih => exact ih hrun.2 (hstep s t a hinit hrun.1)

/-- A preorder that every permitted step respects, as long as an invariant holds, relates the two
ends of a permitted run. -/
theorem Along.le_final {le : σ → σ → Prop} (hrefl : ∀ s, le s s) (htrans : ∀ r s t, le r s → le s t → le r t)
    (hrun : Along step ok s actions) (hinit : inv s)
    (hstep : ∀ s a, inv s → ok s a → inv (step s a) ∧ le s (step s a)) : le s (final step s actions) := by
  induction actions generalizing s with
  | nil => exact hrefl s
  | cons a actions ih =>
    obtain ⟨hinv, hle⟩ := hstep s a hinit hrun.1
    exact htrans _ _ _ hle (ih hrun.2 hinv)

/-- What holds at the start, and goes on to hold after a step exactly if the step is permitted, holds all
along the permitted runs and no others. -/
theorem forall_prefix_iff (inv : List α → σ → Prop) (hinit : inv [] s)
    (hstep : ∀ before a, inv before (final step s before) →
      (inv (before ++ [a]) (step (final step s before) a) ↔ ok (final step s before) a)) :
    (∀ before, before <+: actions → inv before (final step s before)) ↔ Along step ok s actions := by
  induction actions using List.reverseRecOn with
  | nil => simp [Along, hinit]
  | append_singleton actions a ih =>
    have hfinal : final step s (actions ++ [a]) = step (final step s actions) a := final_append
    simp only [List.prefix_concat_iff, forall_eq_or_imp, hfinal, ih, along_append, Along, and_true]
    constructor
    · rintro ⟨hlast, hrun⟩
      exact ⟨hrun, (hstep actions a (ih.mpr hrun actions (List.prefix_refl _))).mp hlast⟩
    · rintro ⟨hrun, hok⟩
      exact ⟨(hstep actions a (ih.mpr hrun actions (List.prefix_refl _))).mpr hok, hrun⟩

/-! ## The actions that a run accepts -/

/-- The actions of a run that `keep` accepts in the state they meet, in their order. -/
def kept (step : σ → α → σ) (keep : σ → α → Bool) : σ → List α → List α
  | _, [] => []
  | s, a :: rest => if keep s a then a :: kept step keep (step s a) rest else kept step keep (step s a) rest

section

variable {keep : σ → α → Bool}

theorem kept_append :
    kept step keep s (actions ++ later)
      = kept step keep s actions ++ kept step keep (final step s actions) later := by
  induction actions generalizing s with
  | nil => rfl
  | cons a actions ih =>
    simp only [List.cons_append, kept, final_cons, ih]
    split <;> rfl

theorem kept_concat_of_keep (h : keep (final step s actions) a = true) :
    kept step keep s (actions ++ [a]) = kept step keep s actions ++ [a] := by
  rw [kept_append, kept, if_pos h, kept]

theorem kept_concat_of_not (h : keep (final step s actions) a = false) :
    kept step keep s (actions ++ [a]) = kept step keep s actions := by
  rw [kept_append, kept, h, if_neg Bool.false_ne_true, kept, List.append_nil]

theorem mem_kept :
    a ∈ kept step keep s actions
      ↔ ∃ before after, actions = before ++ a :: after ∧ keep (final step s before) a = true := by
  constructor
  · intro ha
    induction actions generalizing s with
    | nil => cases ha
    | cons b actions ih =>
      have hrest : a ∈ kept step keep (step s b) actions →
          ∃ before after, b :: actions = before ++ a :: after ∧ keep (final step s before) a = true := by
        intro ha
        obtain ⟨before, after, rfl, hkeep⟩ := ih ha
        exact ⟨b :: before, after, rfl, hkeep⟩
      rw [kept] at ha
      split at ha
      next hkeep =>
        rcases List.mem_cons.mp ha with rfl | ha
        · exact ⟨[], actions, rfl, hkeep⟩
        · exact hrest ha
      · exact hrest ha
  · rintro ⟨before, after, rfl, hkeep⟩
    rw [kept_append, kept, if_pos hkeep]
    exact List.mem_append_right _ List.mem_cons_self

end

/-! ## Steps that can fail -/

section

variable {ε : Type*} {step : σ → α → Except ε σ} {ok : σ → α → Prop} {s s' : σ} {actions : List α}

def reach (step : σ → α → Except ε σ) : σ → List α → Except ε σ
  | s, [] => .ok s
  | s, a :: rest =>
    match step s a with
    | .ok s => reach step s rest
    | .error e => .error e

/-- The condition `ok` holds at every step of the run that is reached. -/
def AlongOk (step : σ → α → Except ε σ) (ok : σ → α → Prop) : σ → List α → Prop
  | _, [] => True
  | s, a :: rest => ok s a ∧ ∀ s', step s a = .ok s' → AlongOk step ok s' rest

instance decidableAlongOk [∀ s a, Decidable (ok s a)] :
    (s : σ) → (actions : List α) → Decidable (AlongOk step ok s actions)
  | _, [] => inferInstanceAs (Decidable True)
  | s, a :: rest =>
    have : Decidable (∀ s', step s a = .ok s' → AlongOk step ok s' rest) :=
      match step s a with
      | .ok s' => have := decidableAlongOk s' rest; decidable_of_iff (AlongOk step ok s' rest) (by simp)
      | .error _ => .isTrue (by simp)
    inferInstanceAs (Decidable (ok s a ∧ ∀ s', step s a = .ok s' → AlongOk step ok s' rest))

theorem AlongOk.and_mem {p : α → Prop} (hrun : AlongOk step ok s actions) (hall : ∀ a ∈ actions, p a) :
    AlongOk step (fun s a => p a ∧ ok s a) s actions := by
  induction actions generalizing s with
  | nil => trivial
  | cons a actions ih =>
    exact ⟨⟨hall a List.mem_cons_self, hrun.1⟩, fun s' hs' =>
      ih (hrun.2 s' hs') fun a ha => hall a (List.mem_cons_of_mem _ ha)⟩

variable {inv : σ → Prop}

theorem AlongOk.invariant (hrun : AlongOk step ok s actions) (hinit : inv s)
    (hstep : ∀ s a s', inv s → ok s a → step s a = .ok s' → inv s') (h : reach step s actions = .ok s') : inv s' := by
  induction actions generalizing s with
  | nil =>
    cases h
    exact hinit
  | cons a actions ih =>
    unfold reach at h
    split at h
    next t ht => exact ih (hrun.2 t ht) (hstep s a t hinit hrun.1 ht) h
    · cases h

theorem AlongOk.cons {a : α} (hok : ok s a) (hstep : step s a = .ok s') (hrest : AlongOk step ok s' actions) :
    AlongOk step ok s (a :: actions) := by
  refine ⟨hok, fun t ht => ?_⟩
  rw [hstep] at ht
  cases ht
  exact hrest

/-- No step of a permitted run fails where none does that starts from the invariant. -/
theorem AlongOk.reaches (inv : σ → Prop) (hrun : AlongOk step ok s actions) (hinit : inv s)
    (hstep : ∀ s a, inv s → ok s a → ∃ s', step s a = .ok s' ∧ inv s') :
    ∃ s', reach step s actions = .ok s' ∧ inv s' := by
  induction actions generalizing s with
  | nil => exact ⟨s, rfl, hinit⟩
  | cons a actions ih =>
    obtain ⟨t, ht, hinv⟩ := hstep s a hinit hrun.1
    obtain ⟨s', hs', hinv'⟩ := ih (hrun.2 t ht) hinv
    refine ⟨s', ?_, hinv'⟩
    rw [reach, ht]
    exact hs'

theorem alongOk_true : AlongOk step (fun _ _ => True) s actions := by
  induction actions generalizing s with
  | nil => trivial
  | cons a actions ih => exact ⟨trivial, fun s' _ => ih⟩

theorem reach_invariant (hinit : inv s) (hstep : ∀ s a s', inv s → step s a = .ok s' → inv s')
    (h : reach step s actions = .ok s') : inv s' :=
  alongOk_true.invariant hinit (fun s a s' hs _ => hstep s a s' hs) h

end

end Run
