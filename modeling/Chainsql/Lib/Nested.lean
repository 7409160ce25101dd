import Mathlib.Data.Prod.Lex
import Mathlib.Order.WellFounded

/-!
# Interpreters with nested runs

A machine takes a configuration to the next one or to a result, and may first ask for the result of
another configuration: a call that suspends the frame that makes it. `run` is the machine with a bound
on its depth. `Returns c r` says that the run of `c` ends in `r`, `Next` relates two configurations of
one frame, and `Visits c d` says that the run of `c` passes through `d`, in its own frame or in one
that it called.
-/

/-- A computation that gives a value at once, or from the result of one inner run. -/
inductive Ask (C R α : Type*) where
  | ret (a : α)
  | call (inner : C) (resume : R → α)

namespace Ask

variable {C R α β : Type*}

def map (f : α → β) : Ask C R α → Ask C R β
  | ret a => ret (f a)
  | call inner resume => call inner fun r => f (resume r)

def eval (result : C → Option R) : Ask C R α → Option α
  | ret a => some a
  | call inner resume => (result inner).map resume

/-- The value satisfies `q`, and an inner run starts in `pre`, if such a run ends in `post`. -/
def wp (pre : C → Prop) (post : C → R → Prop) (q : α → Prop) : Ask C R α → Prop
  | ret a => q a
  | call inner resume => pre inner ∧ ∀ r, post inner r → q (resume r)

variable {pre pre' : C → Prop} {post : C → R → Prop} {q q' : α → Prop} {x : Ask C R α}

theorem wp_map {f : α → β} {q : β → Prop} : (x.map f).wp pre post q ↔ x.wp pre post fun a => q (f a) := by
  cases x <;> rfl

theorem wp.imp (h : x.wp pre post q) (hpre : ∀ c, pre c → pre' c) (hq : ∀ a, q a → q' a) :
    x.wp pre' post q' := by
  cases x with
  | ret a => exact hq a h
  | call inner resume => exact ⟨hpre inner h.1, fun r hr => hq _ (h.2 r hr)⟩

end Ask

namespace Nested

variable {C R α β : Type*} (step : C → Ask C R (C ⊕ R))

def run : Nat → C → Option R
  | 0, _ => none
  | n + 1, c =>
    match (step c).eval (run n) with
    | none => none
    | some (.inl c') => run n c'
    | some (.inr r) => some r

def Returns (c : C) (r : R) : Prop := ∃ n, run step n c = some r

/-- The computation ends in `a`, with the inner run it asks for. -/
def Gives (x : Ask C R α) (a : α) : Prop := ∃ n, x.eval (run step n) = some a

/-- The configuration with which the frame goes on. -/
def Next (c c' : C) : Prop := Gives step (step c) (.inl c')

inductive Visits : C → C → Prop
  | refl (c) : Visits c c
  | next {c c' d} : Next step c c' → Visits c' d → Visits c d
  | enter {c inner d resume} : step c = .call inner resume → Visits inner d → Visits c d

/-- `p` holds at every configuration the computation passes through. -/
def Throughout (p : C → Prop) (x : Ask C R α) : Prop :=
  ∀ inner resume, x = .call inner resume → ∀ d, Visits step inner d → p d

def trace : Nat → C → List C
  | 0, _ => []
  | n + 1, c =>
    c :: match step c with
      | .ret (.inl c') => trace n c'
      | .ret (.inr _) => []
      | .call inner resume =>
        trace n inner ++ match (run step n inner).map resume with
          | some (.inl c') => trace n c'
          | _ => []

def passed (n : Nat) : Ask C R α → List C
  | .ret _ => []
  | .call inner _ => trace step n inner

variable {step} {c c' d inner : C} {r r' : R} {n m : Nat} {x : Ask C R α} {a : α} {resume : R → α}

theorem run_succ (h : run step n c = some r) : run step (n + 1) c = some r := by
  induction n generalizing c r with
  | zero => simp [run] at h
  | succ n ih =>
    rw [run] at h ⊢
    cases hs : step c with
    | ret a =>
      simp only [hs, Ask.eval] at h ⊢
      rcases a with c' | r'
      · exact ih h
      · exact h
    | call inner resume =>
      simp only [hs, Ask.eval] at h ⊢
      cases hi : run step n inner with
      | none => simp [hi] at h
      | some q =>
        rw [ih hi]
        simp only [hi, Option.map_some] at h ⊢
        rcases hq : resume q with c' | r' <;> simp only [hq] at h ⊢
        · exact ih h
        · exact h

theorem run_mono (h : run step n c = some r) (hnm : n ≤ m) : run step m c = some r := by
  induction hnm with
  | refl => exact h
  | step _ ih => exact run_succ ih

theorem Returns.unique (h : Returns step c r) (h' : Returns step c r') : r = r' := by
  obtain ⟨n, hn⟩ := h
  obtain ⟨m, hm⟩ := h'
  have hn := run_mono hn (Nat.le_max_left n m)
  have hm := run_mono hm (Nat.le_max_right n m)
  exact Option.some.inj (hn.symm.trans hm)

variable {b : α} {f : α → β} {p inv : C → Prop} {post : C → R → Prop} {q : α → Prop}

@[simp] theorem gives_ret : Gives step (.ret b) a ↔ b = a := by
  constructor
  · rintro ⟨n, hn⟩
    exact Option.some.inj hn
  · rintro rfl
    exact ⟨0, rfl⟩

theorem gives_call : Gives step (.call inner resume) a ↔ ∃ r, Returns step inner r ∧ resume r = a := by
  constructor
  · rintro ⟨n, hn⟩
    obtain ⟨r, hr, rfl⟩ := Option.map_eq_some_iff.mp hn
    exact ⟨r, ⟨n, hr⟩, rfl⟩
  · rintro ⟨r, ⟨n, hr⟩, rfl⟩
    exact ⟨n, by rw [Ask.eval, hr, Option.map_some]⟩

theorem gives_map {b : β} : Gives step (x.map f) b ↔ ∃ a, Gives step x a ∧ f a = b := by
  cases x with
  | ret a => simp [Ask.map]
  | call inner resume =>
    simp only [Ask.map, gives_call]
    constructor
    · rintro ⟨r, hr, rfl⟩
      exact ⟨_, ⟨r, hr, rfl⟩, rfl⟩
    · rintro ⟨_, ⟨r, hr, rfl⟩, rfl⟩
      exact ⟨r, hr, rfl⟩

theorem throughout_map : Throughout step p (x.map f) ↔ Throughout step p x := by
  cases x with
  | ret a => simp [Throughout, Ask.map]
  | call inner k => simp [Throughout, Ask.map]

theorem Throughout.imp {q : C → Prop} (h : Throughout step p x) (hpq : ∀ d, p d → q d) : Throughout step q x :=
  fun inner k hx d hd => hpq d (h inner k hx d hd)

theorem returns_iff :
    Returns step c r ↔ Gives step (step c) (.inr r) ∨ ∃ c', Next step c c' ∧ Returns step c' r := by
  constructor
  · rintro ⟨n, hn⟩
    cases n with
    | zero => simp [run] at hn
    | succ n =>
      rw [run] at hn
      split at hn
      · cases hn
      next c' hc => exact .inr ⟨c', ⟨n, hc⟩, n, hn⟩
      next r' hc =>
        cases hn
        exact .inl ⟨n, hc⟩
  · have eval_mono : ∀ {y : Ask C R (C ⊕ R)} {b n m}, y.eval (run step n) = some b → n ≤ m →
        y.eval (run step m) = some b := by
      intro y b n m hy hnm
      cases y with
      | ret _ => exact hy
      | call inner k =>
        obtain ⟨q, hq, rfl⟩ := Option.map_eq_some_iff.mp hy
        rw [Ask.eval, run_mono hq hnm, Option.map_some]
    rintro (⟨n, hn⟩ | ⟨c', ⟨n, hn⟩, m, hm⟩)
    · exact ⟨n + 1, by simp only [run, hn]⟩
    · refine ⟨max n m + 1, ?_⟩
      rw [run, eval_mono hn (Nat.le_max_left n m)]
      exact run_mono hm (Nat.le_max_right n m)

theorem Returns.of_reach (h : Relation.ReflTransGen (Next step) c d) (hr : Returns step d r) :
    Returns step c r := by
  induction h using Relation.ReflTransGen.head_induction_on with
  | refl => exact hr
  | head hn _ ih => exact returns_iff.mpr (.inr ⟨_, hn, ih⟩)

theorem Gives.unique (h : Gives step x a) (h' : Gives step x b) : a = b := by
  cases x with
  | ret e => exact (gives_ret.mp h).symm.trans (gives_ret.mp h')
  | call inner resume =>
    obtain ⟨r, hr, rfl⟩ := gives_call.mp h
    obtain ⟨r', hr', rfl⟩ := gives_call.mp h'
    rw [hr.unique hr']

theorem Visits.trans {e : C} (h : Visits step c d) (h' : Visits step d e) : Visits step c e := by
  induction h with
  | refl _ => exact h'
  | next hn _ ih => exact .next hn (ih h')
  | enter hs _ ih => exact .enter hs (ih h')

theorem Visits.mem_trace (h : Visits step c d) (hrun : run step n c = some r) : d ∈ trace step n c := by
  induction n generalizing c r with
  | zero => simp [run] at hrun
  | succ n ih =>
    rw [run] at hrun
    cases h with
    | refl _ => exact List.mem_cons_self
    | @next _ c' _ hn hv =>
      refine List.mem_cons_of_mem _ ?_
      cases hs : step c with
      | ret a =>
        rw [Next, hs, gives_ret] at hn
        subst hn
        simp only [hs, Ask.eval] at hrun
        exact ih hv hrun
      | call inner k =>
        rw [Next, hs, gives_call] at hn
        obtain ⟨q, hq, hk⟩ := hn
        simp only [hs, Ask.eval] at hrun
        cases hi : run step n inner with
        | none => simp [hi] at hrun
        | some q' =>
          have hqq : q' = q := Returns.unique ⟨n, hi⟩ hq
          simp only [hi, Option.map_some, hqq, hk] at hrun ⊢
          exact List.mem_append_right _ (ih hv hrun)
    | @enter _ inner _ k hs hv =>
      refine List.mem_cons_of_mem _ ?_
      simp only [hs, Ask.eval] at hrun ⊢
      cases hi : run step n inner with
      | none => simp [hi] at hrun
      | some q => exact List.mem_append_left _ (ih hv hi)

theorem Throughout.of_passed (hrun : (x.eval (run step n)).isSome) (h : ∀ d ∈ passed step n x, p d) :
    Throughout step p x := by
  rintro inner k rfl d hd
  obtain ⟨a, ha⟩ := Option.isSome_iff_exists.mp hrun
  obtain ⟨r, hr, -⟩ := Option.map_eq_some_iff.mp ha
  exact h d (hd.mem_trace hr)

/-- The rule for runs. `p` is assumed of every configuration that the run passes through. `inv` and
`post` are shown for one step, with `post` for the inner run that it asks for and for the rest of the
frame. -/
theorem Returns.of_wp (h : Returns step c r) (hp : ∀ d, Visits step c d → p d) (hc : inv c)
    (hstep : ∀ c, p c → inv c →
      (step c).wp inv post (Sum.elim (fun c' => inv c' ∧ ∀ r, post c' r → post c r) (post c))) :
    post c r := by
  obtain ⟨n, hn⟩ := h
  induction n generalizing c r with
  | zero => simp [run] at hn
  | succ n ih =>
    have hwp := hstep c (hp c (.refl c)) hc
    rw [run] at hn
    cases hs : step c with
    | ret a =>
      rw [hs] at hwp
      rcases a with c' | r' <;> simp only [hs, Ask.eval] at hn
      · have hnext : Next step c c' := ⟨0, by rw [hs]; rfl⟩
        exact hwp.2 r (ih (fun d hd => hp d (.next hnext hd)) hwp.1 hn)
      · cases hn
        exact hwp
    | call inner k =>
      rw [hs] at hwp
      simp only [hs, Ask.eval] at hn
      cases hi : run step n inner with
      | none => simp [hi] at hn
      | some q =>
        have hk := hwp.2 q (ih (fun d hd => hp d (.enter hs hd)) hwp.1 hi)
        simp only [hi, Option.map_some] at hn
        rcases hq : k q with c' | r' <;> simp only [hq] at hn hk
        · have hnext : Next step c c' := ⟨n, by rw [hs, Ask.eval, hi, Option.map_some, hq]⟩
          exact hk.2 r (ih (fun d hd => hp d (.next hnext hd)) hk.1 hn)
        · cases hn
          exact hk

/-- The value of a computation satisfies what `wp` gives, once `post` is known of all runs. -/
theorem Gives.of_wp (h : Gives step x a) (hx : x.wp inv post q) (hp : Throughout step p x)
    (hpost : ∀ c r, inv c → (∀ d, Visits step c d → p d) → Returns step c r → post c r) : q a := by
  cases x with
  | ret b =>
    rw [gives_ret] at h
    exact h ▸ hx
  | call inner k =>
    obtain ⟨r, hr, rfl⟩ := gives_call.mp h
    exact hx.2 r (hpost inner r hx.1 (hp inner k rfl) hr)

theorem throughout_step (hp : ∀ d, Visits step c d → p d) : Throughout step p (step c) :=
  fun _ _ hs d hd => hp d (.enter hs hd)

theorem Visits.invariant (h : Visits step c d) (hp : ∀ d, Visits step c d → p d) (hc : inv c)
    (hstep : ∀ c, p c → inv c →
      (step c).wp inv post (Sum.elim (fun c' => inv c' ∧ ∀ r, post c' r → post c r) (post c))) :
    inv d := by
  induction h with
  | refl _ => exact hc
  | @next c c' _ hn _ ih =>
    have hq := hn.of_wp (hstep c (hp c (.refl c)) hc) (throughout_step hp)
      fun e r he hpe hr => hr.of_wp hpe he hstep
    exact ih (fun e he => hp e (.next hn he)) hq.1
  | @enter c inner _ k hs _ ih =>
    have hwp := hstep c (hp c (.refl c)) hc
    rw [hs] at hwp
    exact ih (fun e he => hp e (.enter hs he)) hwp.1

theorem Throughout.invariant (hp : Throughout step p x) (hx : x.wp inv post q)
    (hstep : ∀ c, p c → inv c →
      (step c).wp inv post (Sum.elim (fun c' => inv c' ∧ ∀ r, post c' r → post c r) (post c))) :
    Throughout step (fun c => inv c ∧ ∀ d, Visits step c d → p d) x := by
  rintro inner k rfl c hc
  have hinner := hp inner k rfl
  exact ⟨hc.invariant hinner hx.1 hstep, fun d hd => hinner d (hc.trans hd)⟩

/-- A run ends if a well-founded measure falls at every step and at every call. -/
theorem exists_returns {μ : Type*} {lt : μ → μ → Prop} (wf : WellFounded lt) (measure : C → μ)
    (hp : ∀ d, Visits step c d → p d)
    (next : ∀ c c', (∀ d, Visits step c d → p d) → Next step c c' → lt (measure c') (measure c))
    (enter : ∀ c inner k, p c → step c = .call inner k → lt (measure inner) (measure c)) : ∃ r, Returns step c r := by
  induction hm : measure c using wf.induction generalizing c with
  | _ m ih =>
    subst hm
    have goes : ∀ c', Next step c c' → ∃ r, Returns step c r := by
      intro c' hc
      obtain ⟨r, hr⟩ := ih _ (next c c' hp hc) (fun d hd => hp d (.next hc hd)) rfl
      exact ⟨r, returns_iff.mpr (.inr ⟨c', hc, hr⟩)⟩
    cases hs : step c with
    | ret a =>
      rcases a with c' | r
      · exact goes c' (by rw [Next, hs, gives_ret])
      · exact ⟨r, returns_iff.mpr (.inl (by rw [hs, gives_ret]))⟩
    | call inner k =>
      obtain ⟨q, hq⟩ := ih _ (enter c inner k (hp c (.refl c)) hs) (fun d hd => hp d (.enter hs hd)) rfl
      rcases hk : k q with c' | r
      · exact goes c' (by rw [Next, hs, gives_call]; exact ⟨q, hq, hk⟩)
      · exact ⟨r, returns_iff.mpr (.inl (by rw [hs, gives_call]; exact ⟨q, hq, hk⟩))⟩

end Nested
