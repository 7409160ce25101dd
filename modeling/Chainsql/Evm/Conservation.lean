import Chainsql.Evm.Gas

/-!
# No ZXC is created

`Settled` says that no balance was changed in place only: then transfers, creations and the ledger
operations of contracts keep the total of all balances or lower it. A contract that destroys itself breaks
this: its balance is added to the beneficiary and taken away only when `finalize` removes the contract,
which happens to the contract of the outermost frame alone.
-/

namespace Chainsql.Evm

open Nested SleOps Executive

namespace View

variable {v : View} {a b : AccountID} {sle old : AccountRoot}

def rootBalance (v : View) (a : AccountID) : Nat := ((v.roots.lookup a).map fun sle => sle.balance.val).getD 0

/-- Every root is looked up with the balance that is in the ledger. -/
def Settled (v : View) : Prop := ∀ a sle, v.peek a = some sle → sle.balance.val = v.rootBalance a

theorem rootBalance_eq (v : View) (a : AccountID) :
    v.rootBalance a = (v.roots.lookup a).elim 0 fun sle => sle.balance.val := by
  rw [rootBalance]
  cases v.roots.lookup a <;> rfl

theorem total_insert (v : View) (a : AccountID) (sle : AccountRoot) :
    ((v.roots.insert a sle).values.map fun sle => sle.balance.val).sum + v.rootBalance a =
      v.total + sle.balance.val := by
  rw [rootBalance_eq]
  exact AList.sum_values_insert v.roots a _ sle

theorem total_erase (v : View) (a : AccountID) : (v.erase a).total + v.rootBalance a = v.total := by
  rw [rootBalance_eq]
  exact AList.sum_values_erase v.roots a _

theorem rootBalance_insert_self (v : View) (a : AccountID) (sle : AccountRoot) :
    rootBalance { v with roots := v.roots.insert a sle } a = sle.balance.val := by
  simp [rootBalance]

theorem rootBalance_insert_ne (h : b ≠ a) :
    rootBalance { v with roots := v.roots.insert a sle } b = v.rootBalance b := by
  simp [rootBalance, AList.lookup_insert_ne h]

theorem rootBalance_of_peek_none (h : v.peek a = none) : v.rootBalance a = 0 := by
  rw [rootBalance, (Option.or_eq_none_iff.mp h).2]
  rfl

theorem Settled.update (h : v.Settled) (a : AccountID) (sle : AccountRoot) : (v.update a sle).Settled := by
  intro b found hb
  by_cases hba : b = a
  · subst hba
    rw [peek_update_self, Option.some.injEq] at hb
    subst hb
    exact (rootBalance_insert_self v b sle).symm
  · rw [peek_update_ne hba] at hb
    rw [h b found hb]
    exact (rootBalance_insert_ne hba).symm

theorem Settled.total_update (h : v.Settled) (ha : v.peek a = some old) (sle : AccountRoot) :
    (v.update a sle).total + old.balance.val = v.total + sle.balance.val := by
  rw [h a old ha]
  exact total_insert v a sle

/-- A change in place is one in the ledger, or one that is only looked up. -/
theorem poke_spec (v : View) (a : AccountID) (sle : AccountRoot) :
    (∀ b, b ≠ a → (v.poke a sle).peek b = v.peek b ∧ (v.poke a sle).rootBalance b = v.rootBalance b) ∧
      ((v.poke a sle).erase a).total = (v.erase a).total ∧
      ((v.poke a sle).rootBalance a = sle.balance.val ∧ (v.poke a sle).peek a = (v.cached.lookup a).or (some sle) ∨
        (v.poke a sle).rootBalance a = v.rootBalance a ∧ (v.poke a sle).peek a = some sle) := by
  rw [View.poke]
  split
  · refine ⟨fun b hb => ⟨?_, rootBalance_insert_ne hb⟩, ?_, .inl ⟨rootBalance_insert_self v a sle, ?_⟩⟩
    · rw [peek, peek, AList.lookup_insert_ne hb]
    · have hrest := total_erase { v with roots := v.roots.insert a sle } a
      have htotal : View.total { v with roots := v.roots.insert a sle } + _ = _ := total_insert v a sle
      have := total_erase v a
      rw [rootBalance_insert_self] at hrest
      omega
    · rw [peek, AList.lookup_insert]
  · refine ⟨fun b hb => ⟨?_, rfl⟩, rfl, .inr ⟨rfl, ?_⟩⟩
    · rw [peek, peek, AList.lookup_insert_ne hb]
    · rw [peek, AList.lookup_insert, Option.some_or]

theorem peek_poke {found : AccountRoot} (ha : v.peek a = some old) (hfound : (v.poke a sle).peek a = some found) :
    (v.poke a sle).rootBalance a = sle.balance.val ∧ found = old ∨ found = sle := by
  obtain ⟨-, -, ⟨hroot, hpeek⟩ | ⟨-, hpeek⟩⟩ := poke_spec v a sle
  · rw [hpeek] at hfound
    rw [peek] at ha
    cases hcached : v.cached.lookup a with
    | none =>
      rw [hcached] at hfound
      exact .inr (Option.some.inj hfound.symm)
    | some cached =>
      rw [hcached] at hfound ha
      exact .inl ⟨hroot, Option.some.inj (hfound.symm.trans ha)⟩
  · exact .inr (Option.some.inj (hfound.symm.trans hpeek))

theorem Settled.poke (h : v.Settled) (ha : v.peek a = some old) (hb : sle.balance = old.balance) :
    (v.poke a sle).Settled ∧ (v.poke a sle).total = v.total := by
  have hold := h a old ha
  obtain ⟨hother, herase, hself⟩ := poke_spec v a sle
  have hroot : (v.poke a sle).rootBalance a = v.rootBalance a := by
    rw [hb] at hself
    omega
  constructor
  · intro x found hfound
    by_cases hxa : x = a
    · subst hxa
      rw [hroot, ← hold]
      rcases peek_poke ha hfound with ⟨-, rfl⟩ | rfl
      · rfl
      · rw [hb]
    · rw [(hother x hxa).1] at hfound
      rw [(hother x hxa).2]
      exact h x found hfound
  · rw [← total_erase, ← total_erase v a, herase, hroot]

/-- What the ledger holds, once the account `a` is removed and whatever root is written from here on, is at
most `n`. -/
structure Destroyed (n : Nat) (a : AccountID) (v : View) : Prop where
  total_le : (v.erase a).total ≤ n
  peek_le : ∀ b sle, b ≠ a → v.peek b = some sle → (v.erase a).total + sle.balance.val ≤ n + v.rootBalance b

variable {n : Nat}

theorem Destroyed.imp {m : Nat} (h : Destroyed n a v) (hle : n ≤ m) : Destroyed m a v :=
  ⟨h.total_le.trans hle, fun b sle hb hpeek => (h.peek_le b sle hb hpeek).trans (by omega)⟩

theorem Settled.destroyed {sle : AccountRoot} (h : v.Settled) (hb : v.peek b = some old)
    (hle : sle.balance.val ≤ v.rootBalance a + old.balance.val) : Destroyed v.total a (v.poke b sle) := by
  have hold := h b old hb
  obtain ⟨hother, herase, hself⟩ := poke_spec v b sle
  have hrest := total_erase (v.poke b sle) a
  have hrest' := total_erase (v.poke b sle) b
  have hwithout' := total_erase v b
  by_cases hab : a = b
  · subst hab
    refine ⟨by omega, fun x found hx hfound => ?_⟩
    rw [(hother x hx).1] at hfound
    rw [(hother x hx).2, ← h x found hfound]
    omega
  · have hroot := (hother a hab).2
    refine ⟨by omega, fun x found hx hfound => ?_⟩
    by_cases hxb : x = b
    · subst hxb
      rcases peek_poke hb hfound with ⟨hnew, rfl⟩ | rfl
      · omega
      · omega
    · rw [(hother x hxb).1] at hfound
      have := h x found hfound
      have := (hother x hxb).2
      omega

theorem Destroyed.poke (h : Destroyed n a v) (sle : AccountRoot) : Destroyed n a (v.poke a sle) := by
  obtain ⟨hother, herase, -⟩ := poke_spec v a sle
  refine ⟨herase ▸ h.total_le, fun b found hb hfound => ?_⟩
  rw [(hother b hb).1] at hfound
  rw [(hother b hb).2, herase]
  exact h.peek_le b found hb hfound

theorem Destroyed.total_erase_update {amount : Nat} (h : Destroyed n a v) (hb : v.peek b = some old)
    (hle : sle.balance.val ≤ old.balance.val + amount) : ((v.update b sle).erase a).total ≤ n + amount := by
  have hrest := total_erase (v.update b sle) a
  have htotal : (v.update b sle).total + v.rootBalance b = v.total + sle.balance.val := total_insert v b sle
  have hwithout := total_erase v a
  by_cases hab : a = b
  · subst hab
    have hself : (v.update a sle).rootBalance a = sle.balance.val := rootBalance_insert_self v a sle
    have := h.total_le
    omega
  · have hne : (v.update b sle).rootBalance a = v.rootBalance a := rootBalance_insert_ne hab
    have := h.peek_le b old (Ne.symm hab) hb
    omega

end View

variable {σ : Type} {env : Env σ} {ext : Ext} {w w' w'' : World σ}

/-- Balances stay settled, and their total does not grow. -/
def Conserves (w w' : World σ) : Prop :=
  w.view.Settled → w'.view.Settled ∧ w'.view.total ≤ w.view.total

namespace Conserves

theorem of_view (h : w'.view = w.view) : Conserves w w' := by
  intro hw
  rw [h]
  exact ⟨hw, le_refl _⟩

theorem refl (w : World σ) : Conserves w w := of_view rfl

theorem trans (h : Conserves w w') (h' : Conserves w' w'') : Conserves w w'' := by
  intro hw
  obtain ⟨hw', hle⟩ := h hw
  exact ⟨(h' hw').1, (h' hw').2.trans hle⟩

theorem of_keeps (h : Keeps w w') : Conserves w w' := of_view h.view

variable {a : AccountID} {old sle : AccountRoot}

theorem update (ha : getSle w a = some old) (hb : sle.balance = old.balance) :
    Conserves w (SleOps.update w a sle) := by
  intro hw
  have htotal : (w.view.update a sle).total + old.balance.val = w.view.total + sle.balance.val :=
    hw.total_update ha sle
  rw [hb] at htotal
  exact ⟨hw.update a sle, (Nat.add_right_cancel htotal).le⟩

theorem poke (ha : getSle w a = some old) (hb : sle.balance = old.balance) :
    Conserves w { w with view := w.view.poke a sle } := by
  intro hw
  obtain ⟨hsettled, htotal⟩ := hw.poke ha hb
  exact ⟨hsettled, htotal.le⟩

end Conserves

section Ledger

theorem addBalance_settled (hw : w.view.Settled) (a : AccountID) (amount : Int) :
    (addBalance w a amount).view.Settled ∧
      (addBalance w a amount).view.total ≤ w.view.total + amount.toNat := by
  rw [addBalance]
  split
  next sle hsle =>
    split
    · have htotal := hw.total_update hsle { sle with balance := .of (sle.balance.val + amount.toNat) }
      have hmod : (Drops.of (sle.balance.val + amount.toNat)).val ≤ sle.balance.val + amount.toNat :=
        Nat.mod_le _ _
      refine ⟨hw.update _ _, ?_⟩
      show (w.view.update a _).total ≤ _
      dsimp only at htotal
      omega
    · exact ⟨hw, Nat.le_add_right _ _⟩
  next => exact ⟨hw, Nat.le_add_right _ _⟩

theorem subBalance_total {a : AccountID} {amount : Int} {sle : AccountRoot} (hw : w.view.Settled)
    (ha : getSle w a = some sle) (h0 : 0 ≤ amount) (hle : amount ≤ sle.balance.val) :
    (update w a { sle with balance := .of (sle.balance.val - amount).toNat }).view.total + amount.toNat =
      w.view.total := by
  have htotal := hw.total_update ha { sle with balance := .of (sle.balance.val - amount).toNat }
  rw [Drops.val_of (by omega)] at htotal
  show (w.view.update a _).total + _ = _
  omega

variable {destination source : AccountID} {ter : TER} {value : Word}

theorem transferBalance_conserves (hvalue : value.toNat < 2 ^ 63)
    (h : transferBalance env w source destination value = (ter, w')) : Conserves w w' := by
  rcases transferBalance_cases h with rfl | ⟨sle, hsle, hle, -, rfl⟩
  · exact .refl _
  intro hw
  have hdrops : value.toDrops = value.toNat := toInt64_of_lt hvalue
  have htotal := subBalance_total hw hsle (by omega) hle
  obtain ⟨hsettled, hadd⟩ := addBalance_settled
    (w := update w source { sle with balance := .of (sle.balance.val - value.toDrops).toNat })
    (hw.update _ _) destination value.toDrops
  exact ⟨hsettled, hadd.trans htotal.le⟩

theorem applyDirect_conserves (env : Env σ) (w : World σ) (tx : SubTx) :
    Conserves w (applyDirect env w tx).2 := by
  rw [applyDirect]
  split
  · exact .refl w
  · split
    · exact .refl w
    next ter view other happly =>
      intro _
      have hcached := env.transactors.apply_cached _ _ _ _ _ _ happly
      have htotal := env.transactors.apply_total _ _ _ _ _ _ happly
      refine ⟨fun a sle hsle => ?_, htotal⟩
      rw [View.peek, hcached, AList.lookup_empty, Option.none_or] at hsle
      rw [View.rootBalance, hsle]
      rfl

theorem hostRel_conserves (env : Env σ) : HostRel env Conserves where
  same hview _ := .of_view hview
  trans := .trans
  direct := applyDirect_conserves env
  overlay _ hsle := .update hsle rfl

theorem createContractAccount_conserves (hvalue : value.toNat < 2 ^ 63)
    (h : createContractAccount env w source destination value = (ter, w')) : Conserves w w' := by
  rw [createContractAccount] at h
  split at h
  · exact transferBalance_conserves hvalue h
  next hnone =>
    split at h
    · cases h
      exact .refl w
    next other _ =>
      refine Conserves.trans (fun hw => ?_) (transferBalance_conserves hvalue h)
      refine ⟨hw.update _ _, ?_⟩
      have htotal := View.total_insert w.view destination
        { balance := 0, sequence := 1, ownerCount := 0, flags := 0, contractCode := none,
          storageOverlay := ⟨none, ∅⟩ }
      rw [View.rootBalance_of_peek_none hnone] at htotal
      exact htotal.le

theorem setCode_conserves (w : World σ) (a : AccountID) (code : Bytes) : Conserves w (setCode w a code) := by
  rw [setCode]
  split
  next sle hsle => exact .poke hsle rfl
  next => exact .refl w

theorem perform_conserves {call : HostCall} {reply : Reply}
    (h : EvmCHost.perform env ext w call = .ok (reply, w')) : Conserves w w' := by
  by_cases hquery : call.group = .query
  · exact .of_keeps (EvmCHost.perform_query hquery h)
  · refine (hostRel_conserves env).perform h ?_
    cases call
    case get_code_size | get_code_hash | copy_code => exact absurd rfl hquery
    all_goals rfl

theorem clearStorage_conserves (w : World σ) (a : AccountID) : Conserves w (clearStorage w a) := by
  rw [clearStorage]
  split
  next sle hsle => exact .update hsle rfl
  next => exact .refl w

end Ledger

section Frames

variable {depth : Nat} {p : CallParameters} {gasPrice : Word} {origin : AccountID} {e : Executive}

theorem transferValue_conserves {e' : Executive} (hvalue : p.valueTransfer.toNat < 2 ^ 63)
    (h : Executive.transferValue env w p e = (w', e')) : Conserves w w' := by
  rcases transferValue_cases h with ⟨-, rfl, -⟩ | ⟨-, ret, ⟨hpay, -, -⟩ | hpay, -⟩
  · exact .refl _
  · have := applyDirect_conserves env w (.payment p.senderAddress p.receiveAddress p.valueTransfer.toDrops)
    rw [doPayment] at hpay
    rwa [hpay] at this
  · exact transferBalance_conserves hvalue hpay

theorem call_conserves (hvalue : p.valueTransfer.toNat < 2 ^ 63)
    (h : Executive.call env w depth p gasPrice origin = .ok (w', e)) : Conserves w w' := by
  rcases call_cases h with ⟨-, rfl⟩ | ⟨ret, hpre, rfl, -⟩ | hcall
  · exact .refl _
  · exact (hostRel_conserves env).executePreDiy hpre
  · obtain ⟨w₁, e₁, hkeeps, -, -, ⟨rfl, -, -⟩ | htransfer⟩ := callContract_cases hcall
    · exact .of_keeps hkeeps
    · exact (Conserves.of_keeps hkeeps).trans (transferValue_conserves hvalue htransfer)

theorem executeCreate_conserves {newAddress sender : AccountID} {endowment : Word} {gas : Int} {code : Bytes}
    (hvalue : endowment.toNat < 2 ^ 63)
    (h : Executive.executeCreate env w depth newAddress sender endowment gasPrice gas code origin = (w', e)) :
    Conserves w w' := by
  rw [executeCreate] at h
  rcases hcreate : createContractAccount env w sender newAddress endowment with ⟨ret, w₁⟩
  have hw₁ := createContractAccount_conserves hvalue hcreate
  rw [hcreate] at h
  dsimp only at h
  split at h
  · cases h
    exact hw₁
  · split at h
    · cases h
      exact hw₁.trans (.of_view rfl)
    · cases h
      exact hw₁.trans (.of_view rfl)

theorem goWorld_conserves (e : Executive) (w : World σ) (inner : Ext) :
    Conserves w (e.goWorld w inner) := by
  rw [goWorld]
  split
  · exact clearStorage_conserves w _
  · exact .refl w

end Frames

/-- A contract below the outermost frame destroys itself only if it has no balance. -/
def Action.Modest (c : Config σ) : Action → Prop
  | .selfdestruct _ => c.ext.depth ≤ 1 ∨ balance c.world c.ext.myAddress = 0
  | _ => True

instance (c : Config σ) : (action : Action) → Decidable (action.Modest c)
  | .selfdestruct _ => inferInstanceAs (Decidable (_ ∨ _))
  | .next | .jump | .halt _ | .revert _ | .revertDiy _ | .setStorage _ _ | .host _ | .call _ _ _
  | .create _ => .isTrue trivial

def Modest (env : Env σ) (c : Config σ) : Prop := ∀ action ∈ c.action env, action.Modest c

instance (c : Config σ) : Decidable (Modest env c) :=
  inferInstanceAs (Decidable (∀ action ∈ c.action env, action.Modest c))

/-- Nothing has been destroyed in the frame so far. -/
structure Config.Intact (c : Config σ) : Prop where
  settled : c.world.view.Settled
  selfdestruct_eq : c.sub.selfdestruct = []
  depth_pos : 1 ≤ c.ext.depth

/-- How a frame ends: no ZXC has been created, or there will be none once the contract of the outermost
frame is removed. -/
def Config.Pays (c : Config σ) (ended : Ended σ) : Prop :=
  (ended.world.view.Settled ∧ ended.world.view.total ≤ c.world.view.total ∧
      (c.ext.depth = 1 → ended.sub.selfdestruct = [])) ∨
    c.ext.depth = 1 ∧ View.Destroyed c.world.view.total c.ext.myAddress ended.world.view ∧
      ended.sub.selfdestruct = [c.ext.myAddress]

variable {c : Config σ}

variable {ended : Ended σ} {sub : SubState} {e : Executive} {vm : VM}

theorem Config.Pays.imp {c' : Config σ} (h : c'.Pays ended) (hext : c'.ext = c.ext)
    (hle : c'.world.view.total ≤ c.world.view.total) : c.Pays ended := by
  rcases h with ⟨hsettled, htotal, hsub⟩ | ⟨hdepth, hdestroyed, hsub⟩
  · exact .inl ⟨hsettled, htotal.trans hle, hext ▸ hsub⟩
  · rw [hext] at hdepth hdestroyed hsub
    exact .inr ⟨hdepth, hdestroyed.imp hle, hsub⟩

theorem Config.Pays.of_view {halt : Halt} (h : c.Pays ⟨w, sub, halt⟩) (hview : w'.view = w.view) :
    c.Pays ⟨w', sub, halt⟩ := by
  unfold Config.Pays at h ⊢
  rwa [hview]

theorem goEnd_pays {inner : Ext} {gas : Int} {e' : Executive} (hended : (Config.start inner gas w).Pays ended)
    (h : e.goEnd inner ended = .ok (w', sub, e')) : (Config.start inner gas w).Pays ⟨w', sub, ended.halt⟩ := by
  obtain ⟨rfl, ⟨left, out, -, -, hdeposit⟩ | ⟨rfl, -⟩⟩ := goEnd_ok h
  · rcases depositCode_world hdeposit with rfl | rfl
    · rcases hended with ⟨hsettled, htotal, hsub⟩ | ⟨hdepth, hdestroyed, hsub⟩
      · obtain ⟨hsettled', htotal'⟩ := setCode_conserves ended.world inner.myAddress out hsettled
        exact .inl ⟨hsettled', htotal'.trans htotal, hsub⟩
      · refine .inr ⟨hdepth, ?_, hsub⟩
        rw [setCode]
        split
        · exact hdestroyed.poke _
        · exact hdestroyed
    · exact hended
  · exact hended

theorem runFrame_pays (hc : c.Intact) (hw : Conserves c.world w)
    (hdepth : ∀ inner, e.ext = some inner → inner.depth = c.ext.depth + 1) :
    (runFrame w c.sub e).wp Config.Intact (fun c => OnOk c.Pays) (OnOk fun (w', sub', _) =>
      Conserves c.world w' ∧ sub'.selfdestruct = c.sub.selfdestruct) := by
  refine runFrame_wp (fun _ => OnOk.ok.mpr ⟨hw, rfl⟩) fun inner hinner => ?_
  obtain ⟨hsettled, htotal⟩ := (hw.trans (goWorld_conserves e w inner)) hc.settled
  have hlow : (Config.start inner e.gas (e.goWorld w inner)).ext.depth = c.ext.depth + 1 := hdepth inner hinner
  have hpos := hc.depth_pos
  refine ⟨⟨hsettled, rfl, by omega⟩, fun r hr => ?_⟩
  refine OnOk.map (OnOk.bind (hr.imp fun ended hended => ?_))
  rintro ⟨w', sub', e'⟩ hend
  rcases goEnd_pays hended hend with ⟨hsettled', htotal', -⟩ | ⟨hone, -⟩
  · exact ⟨fun _ => ⟨hsettled', htotal'.trans htotal⟩, rfl⟩
  · omega

theorem selfdestruct_pays {beneficiary : AccountID} (hc : c.Intact)
    (hmodest : (Action.selfdestruct beneficiary).Modest c) :
    Sum.elim (fun c' => c'.Intact ∧ c'.ext = c.ext ∧ c'.world.view.total ≤ c.world.view.total)
      (OnOk c.Pays) (c.selfdestruct vm beneficiary) := by
  rw [Config.selfdestruct]
  split
  · exact OnOk.error
  next world sub hself =>
    refine OnOk.ok.mpr ?_
    unfold ExtVM.selfdestruct at hself
    split at hself
    next sleContract sleTo hcontract hto =>
      cases hself
      have hmod : (Drops.of (sleContract.balance.val + sleTo.balance.val)).val ≤
          sleContract.balance.val + sleTo.balance.val := Nat.mod_le _ _
      by_cases hdepth : c.ext.depth = 1
      · refine .inr ⟨hdepth, hc.settled.destroyed hto ?_, ?_⟩
        · rw [← hc.settled _ _ hcontract]
          exact hmod
        · rw [hc.selfdestruct_eq]
          rfl
      · have hzero : sleContract.balance.val = 0 := by
          rcases hmodest with hle | hzero
          · have := hc.depth_pos
            omega
          · rwa [balance, hcontract] at hzero
        have hsame : Drops.of (sleContract.balance.val + sleTo.balance.val) = sleTo.balance := by
          rw [hzero, Nat.zero_add, Drops.of_val]
        let sle := { sleTo with balance := .of (sleContract.balance.val + sleTo.balance.val) }
        have hpoke : Conserves c.world { c.world with view := c.world.view.poke beneficiary sle } :=
          .poke hto hsame
        obtain ⟨hsettled, htotal⟩ := hpoke hc.settled
        exact .inl ⟨hsettled, htotal, fun hone => absurd hone hdepth⟩
    next => cases hself

theorem balance_lt (w : World σ) (a : AccountID) : balance w a < 2 ^ 63 := by
  rw [balance]
  split
  next sle _ => exact sle.balance.isLt
  next => exact Nat.two_pow_pos 63

theorem Config.Intact.next {world : World σ} (hc : c.Intact) (h : Conserves c.world world)
    (hsub : sub.selfdestruct = c.sub.selfdestruct) :
    ({ c with world, sub, vm } : Config σ).Intact ∧ ({ c with world, sub, vm } : Config σ).ext = c.ext ∧
      ({ c with world, sub, vm } : Config σ).world.view.total ≤ c.world.view.total :=
  ⟨⟨(h hc.settled).1, hsub.trans hc.selfdestruct_eq, hc.depth_pos⟩, rfl, (h hc.settled).2⟩

theorem step_pays (hmodest : Modest env c) (hc : c.Intact) :
    (c.step env).wp Config.Intact (fun c => OnOk c.Pays)
      (Sum.elim (fun c' => c'.Intact ∧ c'.ext = c.ext ∧ c'.world.view.total ≤ c.world.view.total)
        (OnOk c.Pays)) := by
  have stops : ∀ (world : World σ) (sub : SubState) halt, Conserves c.world world →
      sub.selfdestruct = c.sub.selfdestruct → OnOk c.Pays (.ok ⟨world, sub, halt⟩ : Outcome σ) :=
    fun world sub halt hworld hsub => OnOk.ok.mpr
      (.inl ⟨(hworld hc.settled).1, (hworld hc.settled).2, fun _ => hsub.trans hc.selfdestruct_eq⟩)
  refine step_wp (fun fault _ => ?_) fun action vm hrun => ?_
  · rw [Config.throw]
    split
    · exact OnOk.error
    · exact stops _ _ _ (.refl _) rfl
  have haction := hmodest action (Config.action_eq hrun)
  cases action with
  | next | jump => exact hc.next (.refl _) rfl
  | halt output | revert output | revertDiy output => exact stops _ _ _ (.refl _) rfl
  | selfdestruct beneficiary => exact selfdestruct_pays hc haction
  | setStorage key value =>
    show Sum.elim _ _ (c.setStorage env vm key value)
    rw [Config.setStorage]
    split
    · exact OnOk.error
    next status world sub hset =>
      obtain ⟨hworld, hsub⟩ := (hostRel_conserves env).setStorage hset
      split
      · rw [Config.throw]
        split
        · exact OnOk.error
        · exact stops _ _ _ hworld hsub
      · exact hc.next hworld hsub
  | host hostCall =>
    show Sum.elim _ _ (c.host env vm hostCall)
    rw [Config.host]
    split
    · exact OnOk.error
    next reply world hperform => exact hc.next (perform_conserves hperform) rfl
  | call msg outOffset outSize =>
    refine act_call_wp (fun _ => OnOk.error) fun w e he => ?_
    have hvalue : (EvmCHost.callParameters c.ext msg).valueTransfer.toNat < 2 ^ 63 := by
      by_cases hzero : (EvmCHost.callParameters c.ext msg).valueTransfer = 0
      · rw [hzero]
        decide
      · exact (call_value hrun hzero).2.trans_lt (balance_lt _ _)
    have hdepth := fun inner hinner => ((call_frame he).ext_eq inner hinner).2.2
    refine (runFrame_pays hc (call_conserves hvalue he) hdepth).imp (fun _ h => h) fun r hr => hr.imp ?_
    rintro ⟨w', sub, e'⟩ ⟨hworld, hsub⟩
    exact hc.next hworld hsub
  | create msg =>
    refine act_create_wp (fun _ => OnOk.error) fun newAddress w e _ he => ?_
    have hvalue : msg.value.toNat < 2 ^ 63 := (interpret_create hrun).2.2.trans_lt (balance_lt _ _)
    have hdepth := (executeCreate_frame he).2
    refine (runFrame_pays hc (executeCreate_conserves hvalue he) hdepth).imp (fun _ h => h) fun r hr => hr.imp ?_
    rintro ⟨w', sub, e'⟩ ⟨hworld, hsub⟩
    exact hc.next hworld hsub

theorem returns_pays {r : Outcome σ} (hc : c.Intact)
    (hmodest : ∀ d, Visits (Config.step env) c d → Modest env d)
    (hr : Returns (Config.step env) c r) : OnOk c.Pays r := by
  refine hr.of_wp hmodest hc fun c hmodest hc => (step_pays hmodest hc).imp (fun _ h => h) fun a ha => ?_
  rcases a with c' | r
  · obtain ⟨hc', hext, hle⟩ := ha
    exact ⟨hc', fun r hr => hr.imp fun ended hended => hended.imp hext hle⟩
  · exact ha

section Transaction

variable {e : Executive} {sub : SubState} {a : AccountID} {inner : Ext}

theorem execute_conserves (hw : w.view.Settled) (hsender : (getSle w env.tx.account).isSome)
    (h : Executive.execute env w = .ok (w', e)) :
    w'.view.Settled ∧ w'.view.total ≤ w.view.total ∧ ∀ inner, e.ext = some inner →
      inner.depth = 1 ∧ w'.view.total + Executive.gasCost env ≤ w.view.total := by
  have hvalue : (BitVec.ofNat 256 env.tx.contractValue).toNat < 2 ^ 63 := by
    have := env.tx.contractValue_lt
    rw [BitVec.toNat_ofNat]
    omega
  rw [execute] at h
  rcases hsub : subBalance env w env.tx.account (gasCost env) false with ⟨ter, w₁⟩
  rw [hsub] at h
  dsimp only at h
  rcases subBalance_cases hsub with ⟨hnone, -, -⟩ | ⟨hter, rfl⟩ | ⟨sle, hsle, hle, rfl, rfl⟩
  · rw [hnone] at hsender
    cases hsender
  · rw [if_pos hter] at h
    cases h
    exact ⟨hw, le_refl _, ext_of_none rfl⟩
  have hcharged := subBalance_total hw hsle (Int.natCast_nonneg _) hle
  rw [if_neg (not_not.mpr rfl)] at h
  -- what follows conserves the total that is left
  have finish : ∀ w₂ : World σ,
      Conserves (update w env.tx.account
        { sle with balance := .of (sle.balance.val - (gasCost env : Int)).toNat }) w₂ →
      w₂.view.Settled ∧ w₂.view.total + gasCost env ≤ w.view.total := by
    intro w₂ hw₂
    obtain ⟨hsettled, htotal⟩ := hw₂ (hw.update _ _)
    exact ⟨hsettled, by omega⟩
  split at h
  · cases h
    obtain ⟨hsettled, htotal⟩ := finish _ (.refl _)
    exact ⟨hsettled, by omega, ext_of_none rfl⟩
  split at h
  · have hcreate := Except.ok.inj h
    obtain ⟨hsettled, htotal⟩ := finish _ (executeCreate_conserves hvalue hcreate)
    refine ⟨hsettled, by omega, fun inner hinner => ⟨?_, htotal⟩⟩
    exact (executeCreate_frame hcreate).2 inner hinner
  · obtain ⟨hsettled, htotal⟩ := finish _ (call_conserves hvalue h)
    refine ⟨hsettled, by omega, fun inner hinner => ⟨?_, htotal⟩⟩
    exact ((call_frame h).ext_eq inner hinner).2.2

theorem givenBack_le_gasCost (sub : SubState) (h0 : 0 ≤ e.gas) (hle : e.gas ≤ env.tx.gas.toNat) :
    Executive.givenBack env e sub ≤ Executive.gasCost env := by
  obtain ⟨n, hn, -, hback⟩ := givenBack_eq sub h0 hle
  rw [hback, Int.ofNat_le]
  exact (Double.round_mono (Nat.mul_le_mul_right _ hn)).trans (Nat.le_max_right _ _)

theorem removed_view (h : Executive.removeAll env w [a] = .ok (tesSUCCESS, w')) : w'.view = w.view.erase a := by
  rw [removeAll] at h
  split at h
  · cases h
  next hsome =>
    split at h
    next ter other _ =>
      split at h
      next hne =>
        cases h
        exact absurd rfl hne
      · cases h
        obtain ⟨sle, hsle⟩ := Option.ne_none_iff_exists'.mp fun hnone => hsome (Option.isNone_iff_eq_none.mpr hnone)
        have hsle : getSle { w with other } a = some sle := hsle
        show (kill { w with other } a).view = w.view.erase a
        rw [kill, hsle]

theorem addBalance_destroyed {n : Nat} (h : View.Destroyed n a w.view) (b : AccountID) (amount : Int) :
    ((addBalance w b amount).view.erase a).total ≤ n + amount.toNat := by
  rw [addBalance]
  split
  next sle hsle =>
    split
    · exact h.total_erase_update hsle (Nat.mod_le _ _)
    · exact h.total_le.trans (Nat.le_add_right _ _)
  next => exact h.total_le.trans (Nat.le_add_right _ _)

theorem go_pays {e' : Executive} (hw : w.view.Settled) (hdepth : inner.depth = 1)
    (hrun : Throughout (Config.step env) (Modest env) (e.go w inner))
    (h : Gives (Config.step env) (e.go w inner) (.ok (w', sub, e'))) :
    ∃ halt, (Config.start inner e.gas w).Pays ⟨w', sub, halt⟩ := by
  obtain ⟨hsettled, htotal⟩ := goWorld_conserves e w inner hw
  obtain ⟨r, hr, hend⟩ := gives_call.mp h
  rcases r with crash | ended
  · cases hend
  have hstart : (Config.start inner e.gas (e.goWorld w inner)).Intact := ⟨hsettled, rfl, hdepth.ge⟩
  have hended := returns_pays hstart (hrun _ _ rfl) hr _ rfl
  exact ⟨ended.halt, (goEnd_pays hended hend).imp rfl htotal⟩

theorem finalize_total {gas : Int} {halt : Halt} {w₁ : World σ}
    (hpays : (Config.start inner gas w).Pays ⟨w₁, sub, halt⟩) (hdepth : inner.depth = 1)
    (h : e.finalize env w₁ sub = .ok (tesSUCCESS, w')) :
    w'.view.total ≤ w.view.total + (Executive.givenBack env e sub).toNat := by
  rw [finalize] at h
  generalize givenBack env e sub = amount at h ⊢
  rcases hpays with ⟨hsettled, htotal, hnone⟩ | ⟨-, hdestroyed, hone⟩
  · have hnone : sub.selfdestruct = [] := hnone hdepth
    rw [hnone] at h
    obtain ⟨-, rfl⟩ := Prod.mk.inj (Except.ok.inj h)
    exact (addBalance_settled hsettled _ _).2.trans (Nat.add_le_add_right htotal _)
  · have hone : sub.selfdestruct = [inner.myAddress] := hone
    obtain ⟨w₂, hkill, rfl⟩ : ∃ w₂, removeAll env (addBalance w₁ env.tx.account amount)
        [inner.myAddress] = .ok (tesSUCCESS, w₂) ∧ w' = w₂ := by
      rw [hone] at h
      obtain ⟨removed, hremove, h⟩ := Except.bind_eq_ok.mp h
      obtain ⟨hter, rfl⟩ := Prod.mk.inj (Except.ok.inj h)
      refine ⟨_, ?_, rfl⟩
      split at hter
      next hne => exact absurd hter hne
      next hsuccess => rw [hremove, ← not_not.mp hsuccess]
    rw [removed_view hkill]
    exact addBalance_destroyed hdestroyed env.tx.account amount

/-- No ZXC is created: a contract transaction that succeeds leaves at most the total that it found, if its
calls are fair and contracts below the outermost frame destroy themselves only without a balance. -/
theorem zxc_not_created (hw : w.view.Settled) (hsender : (getSle w env.tx.account).isSome)
    (hfair : env.tx.contractOpType ≠ .ContractCreation → FairCall env (Executive.txParameters env))
    (hrun : Throughout (Config.step env) (fun c => Fair env c ∧ Modest env c) (doApply env w))
    (h : Gives (Config.step env) (doApply env w) (.ok (tesSUCCESS, w'))) :
    w'.view.total ≤ w.view.total := by
  rw [doApply] at h hrun
  cases hexecute : execute env w with
  | error crash =>
    rw [hexecute] at h
    cases gives_ret.mp h
  | ok prepared =>
    obtain ⟨w₁, e⟩ := prepared
    rw [hexecute] at h hrun
    dsimp only at h hrun
    obtain ⟨hsettled, htotal, hframe⟩ := execute_conserves hw hsender hexecute
    cases hext : e.ext with
    | none =>
      rw [hext] at h
      obtain ⟨-, rfl⟩ := Prod.mk.inj (Except.ok.inj (gives_ret.mp h))
      exact htotal
    | some inner =>
      rw [hext] at h hrun
      obtain ⟨hdepth, hpaid⟩ := hframe inner hext
      have hgas := execute_gas hfair hexecute
      have hlt := env.tx.gas.toNat_lt
      obtain ⟨r, hgo, hfinal⟩ := gives_map.mp h
      have hrun := throughout_map.mp hrun
      rcases r with crash | ⟨w₂, sub, e'⟩
      · cases hfinal
      have hleft := go_gas_le hext hgas.1 (by omega) (hrun.imp fun _ h => h.1) hgo
      obtain ⟨halt, hpays⟩ := go_pays hsettled hdepth (hrun.imp fun _ h => h.2) hgo
      have hview : (if env.tx.contractOpType = .ContractCreation then w₂
          else updateContractCount env w₂ .CONTRACT_CALL).view = w₂.view := by
        split <;> rfl
      have htotal' : w'.view.total ≤ w₁.view.total + (givenBack env e' sub).toNat :=
        finalize_total (hpays.of_view hview) hdepth hfinal
      have hrefund := givenBack_le_gasCost sub hleft.1 (hleft.2.trans hgas.2)
      omega

end Transaction

def resultTotal : Except Crash (TER × World Unit) → Option (TER × Nat)
  | .ok (ter, w) => some (ter, w.view.total)
  | .error _ => none

theorem settled_ledgerOf (roots : List (AccountID × AccountRoot)) : (ledgerOf roots).view.Settled := by
  intro a sle h
  have hlookup : (ledgerOf roots).view.roots.lookup a = some sle := by
    rw [View.peek] at h
    rwa [show (ledgerOf roots).view.cached.lookup a = none from AList.lookup_empty a] at h
  rw [View.rootBalance, hlookup]
  rfl

/-- Contract 101 destroys itself without a balance. -/
theorem zxc_not_created_selfdestruct : ∃ w',
    Gives (Config.step plainCall) (doApply plainCall (callChain [0x60, 7, 0xff] 0)) (.ok (tesSUCCESS, w')) ∧
      w'.view.total ≤ (callChain [0x60, 7, 0xff] 0).view.total := by
  have hresult : ((doApply plainCall (callChain [0x60, 7, 0xff] 0)).eval
      (run (Config.step plainCall) 20)).bind resultTotal = some (tesSUCCESS, 973277) := by decide +kernel
  obtain ⟨r, hr, htotal⟩ := Option.bind_eq_some_iff.mp hresult
  rcases r with crash | ⟨ter, w'⟩
  · cases htotal
  obtain ⟨rfl, -⟩ := Prod.mk.inj (Option.some.inj htotal)
  refine ⟨w', ⟨20, hr⟩, zxc_not_created (settled_ledgerOf _) (by decide) (by decide) ?_ ⟨20, hr⟩⟩
  refine Throughout.of_passed (n := 20) ?_ ?_
  · rfl
  · decide +kernel

/-- Contract 101 destroys itself and pays its balance to account 7, but keeps it. -/
theorem selfdestruct_creates_zxc :
    Gives (Config.step plainCall)
      ((doApply plainCall (callChain [0x60, 7, 0xff] 5000000)).map resultTotal)
      (some (tesSUCCESS, 10973277)) ∧ (callChain [0x60, 7, 0xff] 5000000).view.total = 6000000 :=
  ⟨⟨20, by decide +kernel⟩, by decide +kernel⟩

end Chainsql.Evm
