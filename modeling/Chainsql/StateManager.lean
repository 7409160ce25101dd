import Chainsql.Lib.Run
import Mathlib.Data.Finset.Max

/-!
# Signing sequences

`StateManager` hands out the sequences that the node signs transactions of an account with. No operation touches
another account, so the state here is the entry of one account in `accountState_`. A view is given by the sequence
of the account in it, if it has the account.
-/

namespace Chainsql

structure StateManager.State where
  signSeq : ℕ := 0
  checkSeq : ℕ := 0
  setFailedSeq : Finset ℕ := ∅

abbrev StateManager := Option StateManager.State

namespace StateManager

variable (m : StateManager)

def entry : State := m.getD {}

def getAndIncSignSeq : Option ℕ → StateManager × ℕ
  | none => (m, 0)
  | some sle =>
    let state := m.entry
    let seq := max sle state.checkSeq
    if seq ≤ state.signSeq then
      if hfailed : state.setFailedSeq.Nonempty then
        let ret := state.setFailedSeq.min' hfailed
        (some { state with setFailedSeq := state.setFailedSeq.erase ret }, ret)
      else (some { state with signSeq := (state.signSeq + 1) % 2 ^ 32 }, state.signSeq)
    else (some { state with signSeq := (seq + 1) % 2 ^ 32, checkSeq := seq }, seq)

def getAccountCheckSeq : Option ℕ → StateManager × ℕ
  | none => (m, 0)
  | some seq =>
    if m.isSome ∧ seq ≤ m.entry.checkSeq then (m, m.entry.checkSeq)
    else (some { m.entry with signSeq := seq, checkSeq := seq }, seq)

def onTxCheckSuccess : StateManager :=
  m.map fun state =>
    { state with
      setFailedSeq := state.setFailedSeq.erase state.checkSeq
      checkSeq := (state.checkSeq + 1) % 2 ^ 32 }

def addFailedSeq (seq : ℕ) : StateManager :=
  some { m.entry with setFailedSeq := insert seq m.entry.setFailedSeq }

inductive Call where
  | getAndIncSignSeq (view : Option ℕ)
  | getAccountCheckSeq (view : Option ℕ)
  | onTxCheckSuccess
  | addFailedSeq (seq : ℕ)
  | resetAccountSeq

/-- The manager with the numbers that were handed out and not reported as failed since. -/
abbrev Held := StateManager × Finset ℕ

def step (s : Held) : Call → Held
  | .getAndIncSignSeq view =>
    ((s.1.getAndIncSignSeq view).1, if view.isSome then insert (s.1.getAndIncSignSeq view).2 s.2 else s.2)
  | .getAccountCheckSeq view => ((s.1.getAccountCheckSeq view).1, s.2)
  | .onTxCheckSuccess => (s.1.onTxCheckSuccess, s.2)
  | .addFailedSeq seq => (s.1.addFailedSeq seq, s.2.erase seq)
  | .resetAccountSeq => (none, ∅)

/-- The number returned is not below the sequence in the view, and not handed out to someone else. -/
def Fresh (s : Held) : Call → Prop
  | .getAndIncSignSeq (some sle) =>
    sle ≤ (s.1.getAndIncSignSeq (some sle)).2 ∧ (s.1.getAndIncSignSeq (some sle)).2 ∉ s.2
  | _ => True

/-- No failed number waits that the view is past, the check sequence does not catch up with a view that is behind the
sequence for signing, and failures are reported before the entry is erased. -/
def Careful (s : Held) : Call → Prop
  | .getAndIncSignSeq (some sle) =>
    (max sle s.1.entry.checkSeq ≤ s.1.entry.signSeq → ∀ seq ∈ s.1.entry.setFailedSeq, sle ≤ seq)
      ∧ max (max sle s.1.entry.checkSeq) s.1.entry.signSeq + 1 < 2 ^ 32
  | .getAccountCheckSeq (some sle) => s.1.entry.checkSeq < sle → s.1.entry.signSeq ≤ sle
  | .addFailedSeq seq => seq < s.1.entry.signSeq
  | _ => True

/-- Numbers held or waiting are below the sequence for signing, and none is both. -/
structure Below (s : Held) : Prop where
  held : ∀ seq ∈ s.2, seq < s.1.entry.signSeq ∧ seq ∉ s.1.entry.setFailedSeq
  failed : ∀ seq ∈ s.1.entry.setFailedSeq, seq < s.1.entry.signSeq

theorem Below.step {s : Held} {call : Call} (h : Below s) (hcall : Careful s call) :
    Below (step s call) ∧ Fresh s call := by
  obtain ⟨m, numbers⟩ := s
  obtain ⟨hheld, hfailed⟩ := h
  cases call with
  | getAndIncSignSeq view =>
    cases view with
    | none => exact ⟨⟨hheld, hfailed⟩, trivial⟩
    | some sle =>
      obtain ⟨hwaiting, hlt⟩ := hcall
      dsimp only at hwaiting hlt hheld hfailed
      dsimp only [StateManager.step, Fresh, getAndIncSignSeq]
      split
      next hle =>
        split
        next hne =>
          have hmin := Finset.min'_mem _ hne
          have hview := hwaiting hle _ hmin
          exact ⟨by constructor <;> grind [entry], by grind⟩
        · rw [Nat.mod_eq_of_lt (by omega)]
          exact ⟨by constructor <;> grind [entry], by grind⟩
      · rw [Nat.mod_eq_of_lt (by omega)]
        exact ⟨by constructor <;> grind [entry], by grind⟩
  | getAccountCheckSeq view =>
    cases view with
    | none => exact ⟨⟨hheld, hfailed⟩, trivial⟩
    | some sle =>
      have hle : ¬(m.isSome ∧ sle ≤ m.entry.checkSeq) → m.entry.signSeq ≤ sle := by
        cases m with
        | none => exact fun _ => Nat.zero_le _
        | some state => exact fun hcheck => hcall (by simpa using hcheck)
      dsimp only [StateManager.step, getAccountCheckSeq]
      split
      · exact ⟨⟨hheld, hfailed⟩, trivial⟩
      · exact ⟨by constructor <;> grind [entry], trivial⟩
  | onTxCheckSuccess => cases m <;> exact ⟨by constructor <;> grind [StateManager.step, onTxCheckSuccess, entry], trivial⟩
  | addFailedSeq seq =>
    have hlt : seq < m.entry.signSeq := hcall
    exact ⟨by constructor <;> grind [StateManager.step, addFailedSeq, entry], trivial⟩
  | resetAccountSeq => exact ⟨by constructor <;> simp [StateManager.step, entry], trivial⟩

/-- What a careful run of calls returns last is fresh. -/
theorem fresh_of_careful (calls : List Call) (call : Call)
    (hcalls : Run.Along step Careful (none, ∅) (calls ++ [call])) : Fresh (Run.final step (none, ∅) calls) call := by
  obtain ⟨hbefore, hcall, -⟩ := Run.along_append.mp hcalls
  have hinit : Below (none, ∅) := ⟨by simp, by simp [entry]⟩
  have hbelow := hbefore.invariant hinit fun _ _ h hcall => (h.step hcall).1
  exact (hbelow.step hcall).2

/-- A number that was reported is handed out again. -/
theorem fresh_of_careful_reported :
    Fresh (Run.final step (none, ∅) [.getAndIncSignSeq (some 5), .addFailedSeq 5]) (.getAndIncSignSeq (some 5)) :=
  fresh_of_careful [.getAndIncSignSeq (some 5), .addFailedSeq 5] _
    (by simp [Run.Along, Careful, step, getAndIncSignSeq, addFailedSeq, entry])

/-- A check of a view that 6 was handed out for already makes it be handed out twice, and a failed 5 is handed out for
a view at 6. -/
theorem getAndIncSignSeq_stale :
    let checked := Run.final step (none, ∅)
      [.getAndIncSignSeq (some 5), .getAndIncSignSeq (some 5), .getAccountCheckSeq (some 6)]
    let reported := Run.final step (none, ∅) [.getAndIncSignSeq (some 5), .addFailedSeq 5]
    (6 ∈ checked.2 ∧ (checked.1.getAndIncSignSeq (some 6)).2 = 6)
      ∧ (reported.1.getAndIncSignSeq (some 6)).2 = 5 := by
  decide

end StateManager

end Chainsql
