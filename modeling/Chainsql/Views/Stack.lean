import Chainsql.Lib.Effects
import Chainsql.Views.StateTable

/-!
# The stack of views is one map

`Over` relates a table to the maps below and above it, by what each action says about the two. A table over
a view that answers as a map answers as the map above, the operations keep `Over`, and applying a table to a
view that is written like a map gives the map above.
-/

namespace Chainsql.Views

open SortedMap

variable {κ δ A σ : Type} [LinearOrder κ]

/-- What an action says about the entry below and above. -/
def Fits (action : ApplyStateTable.Action) (sle : SLE κ δ) (below above : Option (Entry δ)) : Prop :=
  match action with
  | .cache => below = some sle.entry ∧ above = some sle.entry
  | .erase => below.isSome = true ∧ above = none
  | .insert => below = none ∧ above = some sle.entry
  | .modify => below.isSome = true ∧ above = some sle.entry

/-- A table between two maps. The actions of both tables are read as those of an `ApplyStateTable`. -/
structure Over (f : A → ApplyStateTable.Action) (items : SortedMap κ (A × SLE κ δ)) (m M : Ledger κ δ) : Prop where
  absent : ∀ k, items.find k = none → M.find k = m.find k
  key : ∀ k item, items.find k = some item → item.2.key = k
  fits : ∀ k item, items.find k = some item → Fits (f item.1) item.2 (m.find k) (M.find k)

def RawStateTable.Action.toApply : RawStateTable.Action → ApplyStateTable.Action
  | .erase => .erase
  | .insert => .insert
  | .replace => .modify

variable {f : A → ApplyStateTable.Action} {items : SortedMap κ (A × SLE κ δ)} {m M M' : Ledger κ δ}
  {sle : SLE κ δ} {k : κ} {a : A} {base : ReadView κ δ}

theorem over_empty : Over f (SortedMap.empty : SortedMap κ (A × SLE κ δ)) m m :=
  ⟨fun _ _ => rfl, fun _ _ h => Option.noConfusion rfl (heq_of_eq h), fun _ _ h => Option.noConfusion rfl (heq_of_eq h)⟩

omit [LinearOrder κ] in
theorem Fits.above {action : ApplyStateTable.Action} {below above : Option (Entry δ)} (h : Fits action sle below above) :
    above = if action = .erase then none else some sle.entry := by
  cases action with
  | erase => exact h.2
  | cache => exact h.2
  | insert => exact h.2
  | modify => exact h.2

omit [LinearOrder κ] in
theorem Fits.below {action : ApplyStateTable.Action} {below above : Option (Entry δ)} (h : Fits action sle below above)
    (hne : action ≠ .insert) : below.isSome = true := by
  cases action with
  | cache => rw [h.1, Option.isSome_some]
  | erase => exact h.1
  | insert => exact absurd rfl hne
  | modify => exact h.1

namespace Over

variable (h : Over f items m M)
include h

theorem set (hother : ∀ j, j ≠ sle.key → M'.find j = M.find j)
    (hfits : Fits (f a) sle (m.find sle.key) (M'.find sle.key)) : Over f (items.set sle.key (a, sle)) m M' := by
  refine ⟨fun j hj => ?_, fun j item hj => ?_, fun j item hj => ?_⟩
  · by_cases hjk : j = sle.key
    · rw [hjk, find_set_self] at hj
      cases hj
    · rw [find_set_ne hjk] at hj
      rw [hother j hjk, h.absent j hj]
  · by_cases hjk : j = sle.key
    · rw [hjk, find_set_self] at hj
      cases hj
      exact hjk.symm
    · rw [find_set_ne hjk] at hj
      exact h.key j item hj
  · by_cases hjk : j = sle.key
    · rw [hjk, find_set_self] at hj
      cases hj
      rw [hjk]
      exact hfits
    · rw [find_set_ne hjk] at hj
      rw [hother j hjk]
      exact h.fits j item hj

theorem write (hfits : Fits (f a) sle (m.find sle.key) (some sle.entry)) :
    Over f (items.set sle.key (a, sle)) m (M.set sle.key sle.entry) :=
  h.set (fun _ => find_set_ne) (by rwa [find_set_self])

theorem remove (hfits : Fits (f a) sle (m.find sle.key) none) :
    Over f (items.set sle.key (a, sle)) m (M.erase sle.key) :=
  h.set (fun _ => find_erase_ne) (by rwa [find_erase_self])

theorem erase (hnone : m.find k = none) : Over f (items.erase k) m (M.erase k) := by
  have hfound : ∀ j item, (items.erase k).find j = some item → j ≠ k ∧ items.find j = some item := by
    intro j item hj
    by_cases hjk : j = k
    · rw [hjk, find_erase_self] at hj
      cases hj
    · rw [find_erase_ne hjk] at hj
      exact ⟨hjk, hj⟩
  refine ⟨fun j hj => ?_, fun j item hj => h.key j item (hfound j item hj).2, fun j item hj => ?_⟩
  · by_cases hjk : j = k
    · rw [hjk, find_erase_self, hnone]
    · rw [find_erase_ne hjk] at hj ⊢
      exact h.absent j hj
  · obtain ⟨hjk, hj⟩ := hfound j item hj
    rw [find_erase_ne hjk]
    exact h.fits j item hj

/-! ## What a table answers -/

theorem find_of_some {item : A × SLE κ δ} (hitem : items.find k = some item) :
    (M.find k).map (SLE.mk k) = if f item.1 = .erase then none else some item.2 := by
  rw [(h.fits k item hitem).above]
  split
  · rfl
  · rw [Option.map_some, ← h.key k item hitem]

theorem present_iff (k : κ) :
    (M.find k).isSome = true ↔ (m.find k).isSome = true ∧ (items.find k).any (fun i => f i.1 = .erase) = false ∨
      ∃ i, (k, i) ∈ items.entries ∧ (!decide (f i.1 = .erase)) = true := by
  simp only [← find_eq_some]
  cases hitem : items.find k with
  | none =>
    rw [h.absent k hitem]
    simp
  | some item =>
    rw [(h.fits k item hitem).above]
    by_cases herase : f item.1 = .erase
    · simp [herase]
    · simp [herase]

theorem answers (hbase : Answers base m) {erased : A × SLE κ δ → Bool}
    (herased : ∀ item, erased item = decide (f item.1 = .erase)) :
    Answers (tableView erased Prod.snd items base) M := by
  obtain rfl : erased = fun item => decide (f item.1 = .erase) := funext herased
  refine ⟨fun k => ?_, fun k hcheck => ?_, fun key last => ?_⟩
  · unfold tableView Ledger.read
    dsimp only
    split
    next hitem =>
      rw [hbase.read, Ledger.read, h.absent k.key hitem]
    next item hitem =>
      rw [h.find_of_some hitem]
      by_cases herase : f item.1 = .erase
      · simp [herase]
      · simp [herase, Option.filter_some]
  · unfold tableView
    dsimp only
    split
    next hitem =>
      rw [h.absent k.key hitem] at hcheck ⊢
      exact hbase.existsItem k hcheck
    next item hitem =>
      have hfind := h.find_of_some hitem
      by_cases herase : f item.1 = .erase
      · rw [if_pos herase] at hfind
        rw [Option.map_eq_none_iff.mp hfind]
        simp [herase]
      · rw [if_neg herase] at hfind
        obtain ⟨e, he, heq⟩ := Option.map_eq_some_iff.mp hfind
        rw [he, ← heq, hcheck e he]
        simp [herase]
  · refine IsNext.eq (p := fun j => (M.find j).isSome = true ∧ IsNext.before last j = true) (k := key) ?_ ?_
    · have hnext : ∀ k, IsNext (fun j => (m.find j).isSome = true ∧ IsNext.before last j = true) k (base.succ k last) := by
        intro k
        rw [hbase.succ]
        exact isNext_next.filter last
      have hsize : ∀ k j, k < j → (items.find j).any (fun i => decide (f i.1 = .erase)) = true →
          (items.upperBound j).length < (items.upperBound k).length := by
        intro k j hlt hj
        refine length_upperBound_lt hlt ?_
        cases hfind : items.find j with
        | none =>
          rw [hfind] at hj
          cases hj
        | some item => rfl
      have hfuel : (items.upperBound key).length < items.entries.length + 1 :=
        Nat.lt_succ_of_le (List.length_filter_le _ _)
      have hskip := IsNext.skip_spec _ hnext hsize key hfuel
      have hhead := isNext_head (m := items) (k := key) (p := fun e => !decide (f e.2.1 = .erase))
      refine ((hskip.or hhead).filter last).congr fun j => ?_
      rw [h.present_iff]
      constructor
      · rintro ⟨⟨⟨hm, -⟩, hq⟩ | hi, hbefore⟩
        · exact ⟨.inl ⟨hm, hq⟩, hbefore⟩
        · exact ⟨.inr hi, hbefore⟩
      · rintro ⟨⟨hm, hq⟩ | hi, hbefore⟩
        · exact ⟨.inl ⟨⟨hm, hbefore⟩, hq⟩, hbefore⟩
        · exact ⟨.inr hi, hbefore⟩
    · exact isNext_next.filter last

end Over

theorem ledger_answers (m : Ledger κ δ) : Answers m.view m := ⟨fun _ => rfl, fun _ _ => rfl, fun _ _ => rfl⟩

/-! ## The operations of the tables -/

namespace ApplyStateTable

variable {t : ApplyStateTable κ δ} (h : Over id t m M)
include h

theorem peek_spec (hbase : Answers base m) (k : Keylet κ) :
    (t.peek base k).1 = M.read k ∧ Over id (t.peek base k).2 m M := by
  unfold peek
  split
  next hfind =>
    rw [hbase.read]
    have hread : m.read k = M.read k := by rw [Ledger.read, Ledger.read, h.absent k.key hfind]
    split
    next hnone => exact ⟨hnone.symm.trans hread, h⟩
    next sle hsome =>
      refine ⟨hsome.symm.trans hread, h.set (fun _ _ => rfl) ?_⟩
      obtain ⟨hmap, -⟩ := Option.filter_eq_some_iff.mp hsome
      obtain ⟨e, he, rfl⟩ := Option.map_eq_some_iff.mp hmap
      exact ⟨he, (h.absent k.key hfind).trans he⟩
  next sle hfind =>
    refine ⟨?_, h⟩
    rw [Ledger.read, h.find_of_some hfind]
    rfl
  next action sle hne hfind =>
    have hne' : id (action, sle).1 ≠ Action.erase := hne
    refine ⟨?_, h⟩
    rw [Ledger.read, h.find_of_some hfind, if_neg hne', Option.filter_some]

omit h in
theorem peek_found {k : Keylet κ} (hkey : ∀ sle, base.read k = some sle → sle.key = k.key)
    (hfound : (t.peek base k).1 = some sle) : (t.peek base k).2.find k.key ≠ none := by
  revert hfound
  unfold peek
  split
  next hfind =>
    split
    · intro hfound
      cases hfound
    next sle' hread =>
      intro _
      rw [← hkey sle' hread, find_set_self]
      exact Option.some_ne_none _
  · intro hfound
    cases hfound
  next action sle' _ hfind =>
    intro _
    rw [hfind]
    exact Option.some_ne_none _

theorem insert_spec (hkey : M.find sle.key = none) :
    ∃ t', t.insert sle = .ok t' ∧ Over id t' m (M.set sle.key sle.entry) := by
  unfold insert
  split
  next hfind =>
    refine ⟨_, rfl, h.write ⟨?_, rfl⟩⟩
    rw [← h.absent _ hfind, hkey]
  next s hfind => exact absurd ((h.fits _ _ hfind).2.symm.trans hkey) (Option.some_ne_none _)
  next s hfind => exact absurd ((h.fits _ _ hfind).2.symm.trans hkey) (Option.some_ne_none _)
  next s hfind => exact absurd ((h.fits _ _ hfind).2.symm.trans hkey) (Option.some_ne_none _)
  next s hfind => exact ⟨_, rfl, h.write ⟨(h.fits _ _ hfind).1, rfl⟩⟩

theorem replace_spec (hkey : (M.find sle.key).isSome = true) :
    ∃ t', t.replace sle = .ok t' ∧ Over id t' m (M.set sle.key sle.entry) := by
  unfold replace
  split
  next hfind =>
    refine ⟨_, rfl, h.write ⟨?_, rfl⟩⟩
    rw [← h.absent _ hfind, hkey]
  next s hfind =>
    rw [(h.fits _ _ hfind).2] at hkey
    cases hkey
  next s hfind => exact ⟨_, rfl, h.write ⟨(h.fits _ _ hfind).1, rfl⟩⟩
  next action s _ hinsert hfind =>
    exact ⟨_, rfl, h.write ⟨(h.fits _ _ hfind).below hinsert, rfl⟩⟩

theorem update_spec (hkey : (M.find sle.key).isSome = true) (hfound : t.find sle.key ≠ none) :
    ∃ t', t.update sle = .ok t' ∧ Over id t' m (M.set sle.key sle.entry) := by
  unfold update
  split
  next hfind => exact absurd hfind hfound
  next s hfind =>
    rw [(h.fits _ _ hfind).2] at hkey
    cases hkey
  next s hfind => exact ⟨_, rfl, h.write ⟨(h.fits _ _ hfind).1, rfl⟩⟩
  next action s _ hinsert hfind =>
    exact ⟨_, rfl, h.write ⟨(h.fits _ _ hfind).below hinsert, rfl⟩⟩

theorem rawErase_spec (hkey : (M.find sle.key).isSome = true) :
    ∃ t', t.rawErase sle = .ok t' ∧ Over id t' m (M.erase sle.key) := by
  unfold rawErase
  split
  next hfind =>
    refine ⟨_, rfl, h.remove ⟨?_, rfl⟩⟩
    rw [← h.absent _ hfind, hkey]
  next s hfind =>
    rw [(h.fits _ _ hfind).2] at hkey
    cases hkey
  next s hfind => exact ⟨_, rfl, h.erase (h.fits _ _ hfind).1⟩
  next action s _ hinsert hfind =>
    exact ⟨_, rfl, h.remove ⟨(h.fits _ _ hfind).below hinsert, rfl⟩⟩

omit h in
theorem erase_eq_rawErase (hfound : t.find sle.key ≠ none) (hne : ∀ s, t.find sle.key ≠ some (.erase, s)) :
    t.erase sle = t.rawErase sle := by
  unfold erase rawErase
  cases hfind : t.find sle.key with
  | none => exact absurd hfind hfound
  | some item =>
    obtain ⟨action, s⟩ := item
    cases action with
    | erase => exact absurd hfind (hne s)
    | cache => rfl
    | insert => rfl
    | modify => rfl

end ApplyStateTable

namespace RawStateTable

variable {t : RawStateTable κ δ} (h : Over Action.toApply t m M)
include h

theorem insert_spec (hkey : M.find sle.key = none) :
    ∃ t', t.insert sle = .ok t' ∧ Over Action.toApply t' m (M.set sle.key sle.entry) := by
  unfold insert
  split
  next hfind =>
    refine ⟨_, rfl, h.write ⟨?_, rfl⟩⟩
    rw [← h.absent _ hfind, hkey]
  next s hfind => exact ⟨_, rfl, h.write ⟨(h.fits _ _ hfind).1, rfl⟩⟩
  next s hfind => exact absurd ((h.fits _ _ hfind).2.symm.trans hkey) (Option.some_ne_none _)
  next s hfind => exact absurd ((h.fits _ _ hfind).2.symm.trans hkey) (Option.some_ne_none _)

theorem replace_spec (hkey : (M.find sle.key).isSome = true) :
    ∃ t', t.replace sle = .ok t' ∧ Over Action.toApply t' m (M.set sle.key sle.entry) := by
  unfold replace
  split
  next hfind =>
    refine ⟨_, rfl, h.write ⟨?_, rfl⟩⟩
    rw [← h.absent _ hfind, hkey]
  next s hfind =>
    rw [(h.fits _ _ hfind).2] at hkey
    cases hkey
  next action s herase hfind =>
    have hfits := h.fits _ _ hfind
    refine ⟨_, rfl, h.write ?_⟩
    cases action with
    | erase => exact absurd rfl herase
    | insert => exact ⟨hfits.1, rfl⟩
    | replace => exact ⟨hfits.1, rfl⟩

theorem erase_spec (hkey : (M.find sle.key).isSome = true) :
    ∃ t', t.erase sle = .ok t' ∧ Over Action.toApply t' m (M.erase sle.key) := by
  unfold erase
  split
  next hfind =>
    refine ⟨_, rfl, h.remove ⟨?_, rfl⟩⟩
    rw [← h.absent _ hfind, hkey]
  next s hfind =>
    rw [(h.fits _ _ hfind).2] at hkey
    cases hkey
  next s hfind => exact ⟨_, rfl, h.erase (h.fits _ _ hfind).1⟩
  next s hfind => exact ⟨_, rfl, h.remove ⟨(h.fits _ _ hfind).1, rfl⟩⟩

end RawStateTable

/-! ## Applying a table -/

/-- A view that is written like a map. -/
structure WrittenLike (to_ : RawView σ κ δ) (rel : σ → Ledger κ δ → Prop) : Prop where
  rawErase : ∀ {s m sle}, rel s m → (m.find sle.key).isSome = true →
    ∃ s', to_.rawErase sle s = .ok s' ∧ rel s' (m.erase sle.key)
  rawInsert : ∀ {s m sle}, rel s m → m.find sle.key = none →
    ∃ s', to_.rawInsert sle s = .ok s' ∧ rel s' (m.set sle.key sle.entry)
  rawReplace : ∀ {s m sle}, rel s m → (m.find sle.key).isSome = true →
    ∃ s', to_.rawReplace sle s = .ok s' ∧ rel s' (m.set sle.key sle.entry)

theorem ledger_writtenLike : WrittenLike (Ledger.raw (κ := κ) (δ := δ)) Eq where
  rawErase {s m sle} hs hkey := by
    subst hs
    exact ⟨_, if_pos hkey, rfl⟩
  rawInsert {s m sle} hs hkey := by
    subst hs
    exact ⟨_, if_neg (by rw [hkey]; exact Bool.false_ne_true), rfl⟩
  rawReplace {s m sle} hs hkey := by
    subst hs
    exact ⟨_, if_pos hkey, rfl⟩

theorem table_writtenLike :
    WrittenLike RawStateTable.raw fun (t : RawStateTable κ δ) M => Over RawStateTable.Action.toApply t m M where
  rawErase h hkey := RawStateTable.erase_spec h hkey
  rawInsert h hkey := RawStateTable.insert_spec h hkey
  rawReplace h hkey := RawStateTable.replace_spec h hkey

def Writes (f : A → ApplyStateTable.Action) (applyItem : σ → κ × (A × SLE κ δ) → Except LogicError σ)
    (rel : σ → Ledger κ δ → Prop) : Prop :=
  ∀ s m above e, rel s m → e.2.2.key = e.1 → Fits (f e.2.1) e.2.2 (m.find e.1) above →
    ∃ s' m', applyItem s e = .ok s' ∧ rel s' m' ∧ m'.find e.1 = above ∧ ∀ j, j ≠ e.1 → m'.find j = m.find j

theorem WrittenLike.action {to_ : RawView σ κ δ} {rel : σ → Ledger κ δ → Prop} (hto : WrittenLike to_ rel) :
    Writes id (ApplyStateTable.applyItem to_) rel := by
  rintro s m above ⟨k, action, sle⟩ hs hk hfits
  obtain rfl : sle.key = k := hk
  cases action with
  | cache => exact ⟨s, m, rfl, hs, hfits.1.trans hfits.2.symm, fun _ _ => rfl⟩
  | erase =>
    obtain ⟨s', hok, hrel⟩ := hto.rawErase hs hfits.1
    exact ⟨s', _, hok, hrel, find_erase_self.trans hfits.2.symm, fun _ => find_erase_ne⟩
  | insert =>
    obtain ⟨s', hok, hrel⟩ := hto.rawInsert hs hfits.1
    exact ⟨s', _, hok, hrel, find_set_self.trans hfits.2.symm, fun _ => find_set_ne⟩
  | modify =>
    obtain ⟨s', hok, hrel⟩ := hto.rawReplace hs hfits.1
    exact ⟨s', _, hok, hrel, find_set_self.trans hfits.2.symm, fun _ => find_set_ne⟩

theorem WrittenLike.rawAction {to_ : RawView σ κ δ} {rel : σ → Ledger κ δ → Prop} (hto : WrittenLike to_ rel) :
    Writes RawStateTable.Action.toApply (RawStateTable.applyItem to_) rel := by
  rintro s m above ⟨k, action, sle⟩ hs hk hfits
  obtain rfl : sle.key = k := hk
  have happly := hto.action s m above ⟨sle.key, action.toApply, sle⟩ hs rfl hfits
  cases action with
  | erase => exact happly
  | insert => exact happly
  | replace => exact happly

variable {applyItem : σ → κ × (A × SLE κ δ) → Except LogicError σ}

theorem Writes.foldlM {rel : σ → Ledger κ δ → Prop} (hitem : Writes f applyItem rel) {l : List (κ × (A × SLE κ δ))}
    (hsorted : l.Pairwise fun a b => a.1 < b.1) {s : σ} {m : Ledger κ δ} (hs : rel s m)
    (habsent : ∀ k, SortedMap.findIn k l = none → M.find k = m.find k) (hkey : ∀ e ∈ l, e.2.2.key = e.1)
    (hfits : ∀ e ∈ l, Fits (f e.2.1) e.2.2 (m.find e.1) (M.find e.1)) :
    ∃ s', l.foldlM applyItem s = .ok s' ∧ rel s' M := by
  induction l generalizing s m with
  | nil => exact ⟨s, rfl, ext_find (fun k => habsent k rfl) ▸ hs⟩
  | cons e l ih =>
    obtain ⟨hhead, hrest⟩ := List.pairwise_cons.mp hsorted
    obtain ⟨s', m', hok, hrel, hself, hother⟩ :=
      hitem s m (M.find e.1) e hs (hkey e List.mem_cons_self) (hfits e List.mem_cons_self)
    have hrestFits : ∀ e' ∈ l, Fits (f e'.2.1) e'.2.2 (m'.find e'.1) (M.find e'.1) := by
      intro e' he'
      rw [hother e'.1 (hhead e' he').ne']
      exact hfits e' (List.mem_cons_of_mem _ he')
    have hrestAbsent : ∀ k, findIn k l = none → M.find k = m'.find k := by
      intro k hk
      by_cases heq : k = e.1
      · rw [heq, hself]
      · rw [hother k heq]
        refine habsent k ?_
        rw [findIn, List.find?_cons_of_neg (by simpa using Ne.symm heq)]
        exact hk
    obtain ⟨s'', hfold, hrel'⟩ :=
      ih hrest hrel hrestAbsent (fun e' he' => hkey e' (List.mem_cons_of_mem _ he')) hrestFits
    refine ⟨s'', ?_, hrel'⟩
    rw [List.foldlM_cons, hok]
    exact hfold

theorem Over.apply {rel : σ → Ledger κ δ → Prop} (h : Over f items m M) (hitem : Writes f applyItem rel) {s : σ}
    (hs : rel s m) : ∃ s', items.entries.foldlM applyItem s = .ok s' ∧ rel s' M :=
  hitem.foldlM items.sorted hs h.absent (fun e he => h.key e.1 e.2 (find_eq_some.mpr he))
    fun e he => h.fits e.1 e.2 (find_eq_some.mpr he)

/-! ## Runs -/

structure Stack.Shows (base : Ledger κ δ) (s : Stack κ δ) (p : Plain κ δ) : Prop where
  base_eq : s.base = base
  table : Over RawStateTable.Action.toApply s.table base p.committed
  top : Over id s.top p.committed p.running

namespace Stack.Shows

variable {s : Stack κ δ} {p : Plain κ δ} {base : Ledger κ δ} (h : s.Shows base p)
include h

theorem openView : Answers s.openView p.committed := by
  refine h.table.answers (h.base_eq ▸ ledger_answers base) fun item => ?_
  obtain ⟨action, sle⟩ := item
  cases action <;> rfl

theorem view : Answers s.view p.running := h.top.answers h.openView fun _ => rfl

theorem apply : ∃ s', s.apply = .ok s' ∧ s'.Shows base ⟨p.running, p.running⟩ := by
  obtain ⟨table, hok, htable⟩ := h.top.apply (table_writtenLike (m := base)).action h.table
  refine ⟨⟨s.base, table, .empty⟩, ?_, h.base_eq, htable, over_empty⟩
  unfold Stack.apply ApplyStateTable.apply
  rw [hok]
  rfl

theorem applyAll : s.applyAll = .ok p.running := by
  obtain ⟨s', hok, hs'⟩ := h.apply
  obtain ⟨base', hbase, rfl⟩ := hs'.table.apply ledger_writtenLike.rawAction rfl
  unfold Stack.applyAll RawStateTable.apply
  rw [hok]
  show List.foldlM _ s'.base s'.table.entries = _
  rw [hs'.base_eq]
  exact hbase

theorem peek_present {key : κ} (hkey : (p.running.find key).isSome = true) :
    ∃ e top, s.top.peek s.openView ⟨ltANY, key⟩ = (some ⟨key, e⟩, top) ∧ Over id top p.committed p.running ∧
      top.find key ≠ none := by
  obtain ⟨e, he⟩ := Option.isSome_iff_exists.mp hkey
  obtain ⟨hread, hover⟩ := ApplyStateTable.peek_spec h.top h.openView ⟨ltANY, key⟩
  have hsome : (s.top.peek s.openView ⟨ltANY, key⟩).1 = some ⟨key, e⟩ := by
    rw [hread, Ledger.read, he]
    rfl
  refine ⟨e, _, Prod.ext hsome rfl, hover, ApplyStateTable.peek_found (fun sle hsle => ?_) hsome⟩
  rw [h.openView.read] at hsle
  obtain ⟨hmap, -⟩ := Option.filter_eq_some_iff.mp hsle
  obtain ⟨e', -, rfl⟩ := Option.map_eq_some_iff.mp hmap
  rfl

theorem step (op : Op κ δ) (hlegal : p.Legal op) : ∃ s', s.step op = .ok s' ∧ s'.Shows base (p.step op) := by
  cases op with
  | peek k => exact ⟨_, rfl, h.base_eq, h.table, (ApplyStateTable.peek_spec h.top h.openView k).2⟩
  | insert sle =>
    obtain ⟨t, hok, ht⟩ := ApplyStateTable.insert_spec h.top hlegal
    refine ⟨{ s with top := t }, ?_, h.base_eq, h.table, ht⟩
    simp only [Stack.step, hok]
    rfl
  | update sle =>
    obtain ⟨e, top, hpeek, hover, hfound⟩ := h.peek_present hlegal
    obtain ⟨t, hok, ht⟩ := ApplyStateTable.update_spec hover hlegal hfound
    refine ⟨{ s with top := t }, ?_, h.base_eq, h.table, ht⟩
    simp only [Stack.step, hpeek, hok]
    rfl
  | replace sle =>
    obtain ⟨t, hok, ht⟩ := ApplyStateTable.replace_spec h.top hlegal
    refine ⟨{ s with top := t }, ?_, h.base_eq, h.table, ht⟩
    simp only [Stack.step, hok]
    rfl
  | erase key =>
    obtain ⟨e, top, hpeek, hover, hfound⟩ := h.peek_present hlegal
    obtain ⟨t, hok, ht⟩ : ∃ t', ApplyStateTable.rawErase top ⟨key, e⟩ = .ok t' ∧ Over id t' _ (p.running.erase key) :=
      ApplyStateTable.rawErase_spec hover hlegal
    have hne : ∀ sle, top.find key ≠ some (.erase, sle) := by
      intro sle hfind
      have hlegal : (p.running.find key).isSome = true := hlegal
      rw [(hover.fits _ _ hfind).2] at hlegal
      cases hlegal
    rw [← ApplyStateTable.erase_eq_rawErase hfound hne] at hok
    refine ⟨{ s with top := t }, ?_, h.base_eq, h.table, ht⟩
    simp only [Stack.step, hpeek, hok]
    rfl
  | rawErase sle =>
    obtain ⟨t, hok, ht⟩ := ApplyStateTable.rawErase_spec h.top hlegal
    refine ⟨{ s with top := t }, ?_, h.base_eq, h.table, ht⟩
    simp only [Stack.step, hok]
    rfl
  | apply => exact h.apply
  | discard => exact ⟨_, rfl, h.base_eq, h.table, over_empty⟩

end Stack.Shows

theorem shows_init (base : Ledger κ δ) : (Stack.init base).Shows base ⟨base, base⟩ := ⟨rfl, over_empty, over_empty⟩

/-- No operation fails, the top of the stack answers as the map does, and applying all layers gives it. -/
theorem stack_refines_map (base : Ledger κ δ) (ops : List (Op κ δ))
    (hlegal : Run.Along Plain.step Plain.Legal ⟨base, base⟩ ops) :
    ∃ s, Run.reach Stack.step (.init base) ops = .ok s ∧
      Answers s.view (Run.final Plain.step ⟨base, base⟩ ops).running ∧
      s.applyAll = .ok (Run.final Plain.step ⟨base, base⟩ ops).running := by
  have hrun : ∀ (s : Stack κ δ) p, s.Shows base p → Run.Along Plain.step Plain.Legal p ops →
      ∃ s', Run.reach Stack.step s ops = .ok s' ∧ s'.Shows base (Run.final Plain.step p ops) := by
    clear hlegal
    induction ops with
    | nil => exact fun s p hs _ => ⟨s, rfl, hs⟩
    | cons op ops ih =>
      intro s p hs hlegal
      obtain ⟨s', hok, hs'⟩ := hs.step op hlegal.1
      obtain ⟨s'', hreach, hs''⟩ := ih s' _ hs' hlegal.2
      refine ⟨s'', ?_, hs''⟩
      rw [Run.reach, hok]
      exact hreach
  obtain ⟨s, hreach, hs⟩ := hrun _ _ (shows_init base) hlegal
  exact ⟨s, hreach, hs.view, hs.applyAll⟩

def demoBase : Ledger ℕ String := ((SortedMap.empty.set 5 ⟨97, "five"⟩).set 9 ⟨97, "nine"⟩)

def demoOps : List (Op ℕ String) :=
  [.erase 5, .apply, .erase 9, .discard, .insert ⟨5, ⟨97, "new five"⟩⟩, .insert ⟨7, ⟨97, "seven"⟩⟩, .apply,
    .update ⟨9, ⟨97, "new nine"⟩⟩]

theorem stack_refines_map_demoOps :
    Run.Along Plain.step Plain.Legal ⟨demoBase, demoBase⟩ demoOps ∧
      (Run.final Plain.step ⟨demoBase, demoBase⟩ demoOps).running.entries =
        [(5, ⟨97, "new five"⟩), (7, ⟨97, "seven"⟩), (9, ⟨97, "new nine"⟩)] ∧
      ∃ s, Run.reach Stack.step (.init demoBase) demoOps = .ok s ∧
        Answers s.view (Run.final Plain.step ⟨demoBase, demoBase⟩ demoOps).running ∧
        s.applyAll = .ok (Run.final Plain.step ⟨demoBase, demoBase⟩ demoOps).running :=
  have hlegal : Run.Along Plain.step Plain.Legal ⟨demoBase, demoBase⟩ demoOps :=
    ⟨rfl, trivial, rfl, trivial, rfl, rfl, trivial, rfl, trivial⟩
  ⟨hlegal, rfl, stack_refines_map demoBase demoOps hlegal⟩

end Chainsql.Views
