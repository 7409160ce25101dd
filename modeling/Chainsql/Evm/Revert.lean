import Chainsql.Evm.Step
import Mathlib.Data.List.TakeWhile

/-!
# Reverted frames

The result code of a revert travels as a decimal number in the output of the frame. `atoi` reads back what
`std::to_string` has written, so that the code of an inner call arrives as it was. What `REVERTDIY` takes
from memory can be anything, and a text that `atoi` reads as zero makes the frame a success.
-/

namespace Chainsql.Evm

open Nested Exec

section Decimal

theorem digitsValue_append (ds : Bytes) (d : UInt8) : digitsValue (ds ++ [d]) = digitsValue ds * 10 + (d.toNat - 48) := by
  rw [digitsValue, List.foldl_append]
  rfl

theorem toNat_digit (n : Nat) : (UInt8.ofNat (48 + n % 10)).toNat = 48 + n % 10 := by
  rw [UInt8.toNat_ofNat']
  omega

theorem isDigit_digit (n : Nat) : isDigit (UInt8.ofNat (48 + n % 10)) = true := by
  have h := toNat_digit n
  simp only [isDigit, Bool.and_eq_true, decide_eq_true_eq, UInt8.le_iff_toNat_le, h]
  constructor
  · exact Nat.le_add_right _ _
  · show 48 + n % 10 ≤ 57
    omega

theorem decimalDigits_eq (fuel n : Nat) (rest : Bytes) (h0 : 0 < n) (h : n < 10 ^ fuel) :
    ∃ ds, decimalDigits fuel n rest = ds ++ rest ∧ ds ≠ [] ∧ (∀ d ∈ ds, isDigit d = true) ∧
      digitsValue ds = n := by
  induction fuel generalizing n rest with
  | zero =>
    omega
  | succ fuel ih =>
    rw [decimalDigits]
    split
    next hlast =>
      refine ⟨[UInt8.ofNat (48 + n % 10)], rfl, by simp, by simpa using isDigit_digit n, ?_⟩
      show 0 * 10 + ((UInt8.ofNat (48 + n % 10)).toNat - 48) = n
      rw [toNat_digit]
      omega
    next hmore =>
      have hlt : n / 10 < 10 ^ fuel := by
        omega
      obtain ⟨ds, hds, -, hdigits, hvalue⟩ := ih (n / 10) (UInt8.ofNat (48 + n % 10) :: rest) (by omega) hlt
      refine ⟨ds ++ [UInt8.ofNat (48 + n % 10)], ?_, by simp, ?_, ?_⟩
      · rw [hds, List.append_assoc]
        rfl
      · intro d hd
        rcases List.mem_append.mp hd with hd | hd
        · exact hdigits d hd
        · rw [List.mem_singleton.mp hd]
          exact isDigit_digit n
      · rw [digitsValue_append, toNat_digit]
        omega

variable {d : UInt8}

theorem isDigit_iff : isDigit d = true ↔ 48 ≤ d.toNat ∧ d.toNat ≤ 57 := by
  simp only [isDigit, Bool.and_eq_true, decide_eq_true_eq, UInt8.le_iff_toNat_le]
  rfl

theorem isSpace_of_isDigit (h : isDigit d = true) : isSpace d = false := by
  have hd := isDigit_iff.mp h
  have h32 : d ≠ 32 := by
    rintro rfl
    exact absurd hd.1 (by decide)
  have h13 : ¬d ≤ 13 := by
    intro hle
    have hle : d.toNat ≤ 13 := UInt8.le_iff_toNat_le.mp hle
    omega
  simp [isSpace, h32, h13]

theorem strtol_digits {ds : Bytes} (hne : ds ≠ []) (hdigits : ∀ d ∈ ds, isDigit d = true)
    (hlt : digitsValue ds < 2 ^ 63) : strtol ds = digitsValue ds := by
  obtain ⟨d, rest, rfl⟩ := List.exists_cons_of_ne_nil hne
  have hd := hdigits d List.mem_cons_self
  have hspace : (d :: rest).dropWhile isSpace = d :: rest := by
    rw [List.dropWhile_cons, isSpace_of_isDigit hd, if_neg Bool.false_ne_true]
  have hsign : ∀ sign : UInt8, sign.toNat < 48 → (d :: rest).head? ≠ some sign := by
    rintro sign hsign heq
    rw [List.head?_cons, Option.some.injEq] at heq
    have := (isDigit_iff.mp hd).1
    rw [heq] at this
    omega
  have hall : (d :: rest).takeWhile isDigit = d :: rest := List.takeWhile_eq_self_iff.mpr hdigits
  rw [strtol]
  simp only [hspace, hsign 45 (by decide), hsign 43 (by decide), decide_false, Bool.or_self,
    Bool.false_eq_true, if_false, hall]
  omega

theorem atoi_toDecimal {x : Int32} (h : 0 < x) : TER.fromInt (atoi (toDecimal x.toInt)) = ⟨x⟩ := by
  have hpos : 0 < x.toInt := Int32.lt_iff_toInt_lt.mp h
  have hlt : x.toInt < 2 ^ 31 := Int32.toInt_lt x
  obtain ⟨ds, hds, hne, hdigits, hvalue⟩ :=
    decimalDigits_eq 20 x.toInt.natAbs [] (by omega) (by omega)
  have htext : toDecimal x.toInt = ds := by
    rw [toDecimal, hds, List.append_nil, if_neg (by omega)]
  have hatoi : atoi ds = x.toInt := by
    rw [atoi, strtol_digits hne hdigits (by omega), hvalue, toInt32, Int.bmod_def]
    omega
  rw [htext, hatoi, TER.fromInt, Int32.ofInt_toInt]

end Decimal

theorem fromInt_atoi_eq {text : Bytes} : TER.fromInt (atoi text) = tesSUCCESS ↔ atoi text = 0 := by
  rw [TER.fromInt, TER.mk.injEq, Int32.ofInt_eq_iff_bmod_eq_toInt, atoi, toInt32, Int.bmod_bmod]
  rfl

section Memory

variable {s t : VM} {offset size : Word}

theorem updateGas_mem (h : updateGas.run s = .ok ((), t)) : t.mem = s.mem ∧ t.newMemSize = s.newMemSize := by
  obtain ⟨_, s₁, hget, h₁⟩ := run_bind_ok.mp h
  cases hget
  obtain ⟨_, s₂, hmem, h₂⟩ := run_bind_ok.mp h₁
  obtain ⟨_, s₃, hadd, h₃⟩ := run_bind_ok.mp h₂
  cases hadd
  obtain rfl := checkGas_ok h₃
  rcases onlyIf_ok.mp hmem with ⟨-, hmem⟩ | ⟨-, rfl⟩
  · obtain ⟨_, -, rfl⟩ := addMemGas_ok hmem
    exact ⟨rfl, rfl⟩
  · exact ⟨rfl, rfl⟩

theorem needMem_mem (h : (needMem offset size).run s = .ok ((), t)) :
    (∃ n, t.mem = s.mem ++ zeros n) ∧ (size ≠ 0 → offset.toNat + size.toNat ≤ t.mem.length ∧
      offset.toNat + size.toNat < 2 ^ 63) := by
  obtain ⟨_, s₁, hneed, h₁⟩ := run_bind_ok.mp h
  obtain ⟨hlt, rfl, rfl⟩ := toInt63_ok.mp hneed
  obtain ⟨_, s₂, hset, h₂⟩ := run_bind_ok.mp h₁
  cases hset
  obtain ⟨_, s₃, hgas, h₃⟩ := run_bind_ok.mp h₂
  cases h₃
  obtain ⟨hmem, hnew⟩ := updateGas_mem hgas
  dsimp only at hmem hnew ⊢
  rw [hmem, hnew]
  refine ⟨⟨_, rfl⟩, fun hne => ?_⟩
  rw [if_pos hne] at hlt ⊢
  rw [List.length_append, zeros, List.length_replicate]
  omega

theorem slice_zeros {mem : Bytes} {n start count : Nat} (h : count ≠ 0 → start + count ≤ mem.length + n) :
    slice (mem ++ zeros n) start count = (List.range count).map fun i => mem.getD (start + i) 0 := by
  apply List.ext_getElem
  · simp only [slice, zeros, List.length_take, List.length_drop, List.length_append, List.length_replicate,
      List.length_map, List.length_range]
    omega
  · intro i hi hi'
    simp only [slice, List.getElem_take, List.getElem_drop, List.getElem_map, List.getElem_range,
      List.getD_eq_getElem?_getD]
    by_cases hlt : start + i < mem.length
    · rw [List.getElem_append_left hlt, List.getElem?_eq_getElem hlt, Option.getD_some]
    · rw [List.getElem_append_right (by omega), List.getElem?_eq_none (by omega), Option.getD_none]
      simp only [zeros, List.getElem_replicate]

end Memory

variable {σ : Type} {env : Env σ} {w w' : World σ} {c : Config σ}

/-- The bytes of memory that the first two items of the stack name, zero where memory has not grown. -/
def Config.revertText (c : Config σ) : Bytes :=
  (List.range (c.vm.spp.getD 1 0).toSize).map fun i => c.vm.mem.getD ((c.vm.spp.getD 0 0).toSize + i) 0

/-- The next instruction is a `REVERTDIY` after no inner call has failed, and `atoi` reads the text as
zero. -/
def Config.Faked (c : Config σ) : Prop :=
  c.opcode = .REVERTDIY ∧ c.vm.exception ≤ 0 ∧ atoi c.revertText = 0

theorem region_eq {vm t : VM}
    (h : (do needMem (vm.SP 0) (vm.SP 1); updateIOGas : Exec Unit).run vm = .ok ((), t))
    (hsp : vm.sp = c.vm.spp) (hmem : vm.mem = c.vm.mem) :
    t.region 0 1 = c.revertText ∧ t.exception = vm.exception := by
  obtain ⟨_, s, hneed, hio⟩ := run_bind_ok.mp h
  have hmetered := (ensures_needMem (p := True) (vm.SP 0) (vm.SP 1)).rel hneed
  obtain ⟨-, rfl⟩ := updateIOGas_ok hio
  obtain ⟨⟨n, hgrown⟩, hfits⟩ := needMem_mem hneed
  have hsp' : ∀ i, s.SP i = c.vm.spp.getD i 0 := fun i => by rw [VM.SP, hmetered.sp_eq, hsp]
  refine ⟨?_, hmetered.exception_eq⟩
  show slice s.mem (s.SP 0).toSize (s.SP 1).toSize = c.revertText
  rw [hsp', hsp', hgrown, hmem]
  refine slice_zeros fun hne => ?_
  have hlen : s.mem.length = c.vm.mem.length + n := by
    rw [hgrown, hmem, List.length_append, zeros, List.length_replicate]
  have h0 : vm.SP 0 = c.vm.spp.getD 0 0 := by rw [VM.SP, hsp]
  have h1 : vm.SP 1 = c.vm.spp.getD 1 0 := by rw [VM.SP, hsp]
  rw [h0, h1] at hfits
  have hsize : c.vm.spp.getD 1 0 ≠ 0 := by
    rintro hzero
    rw [hzero] at hne
    exact hne rfl
  obtain ⟨hle, hlt⟩ := hfits hsize
  rw [Word.toSize, Word.toSize, u64, u64]
  omega

variable {action : Action} {ter : TER} {e : Executive}

/-- What a revert puts into the output of the frame, and what becomes of it. -/
theorem interpret_revert (hop : c.opcode = .REVERT ∨ c.opcode = .REVERTDIY) (h : c.action env = some action) :
    (action = .revert c.revertText ∧ ¬c.Faked) ∨
      ∃ output, action = .revertDiy output ∧ (TER.fromInt (atoi output) = tesSUCCESS ↔ c.Faked) := by
  obtain ⟨vm, hrun⟩ := Config.action_run h
  obtain ⟨op, vm₁, vm₂, hfetch, hmeter, heffect⟩ := interpret_ok.mp hrun
  obtain ⟨hcode, -, rfl⟩ := fetch_ok hfetch
  have hopcode : op = c.opcode := hcode
  -- the code of an inner call is positive, so that it does not become zero on the way
  have passed : 0 < vm₂.exception → vm₂.exception = c.vm.exception →
      (TER.fromInt (atoi (toDecimal vm₂.exception.toInt)) = tesSUCCESS ↔ c.Faked) := by
    intro hpos hexc
    rw [atoi_toDecimal hpos]
    constructor
    · intro heq
      have hzero : vm₂.exception = 0 := congrArg TER.code heq
      rw [hzero] at hpos
      exact absurd hpos (by decide)
    · rintro ⟨-, hle, -⟩
      rw [← hexc] at hle
      exact absurd hpos (Int32.not_lt.mpr hle)
  rcases hop with hop | hop
  · rw [hopcode, hop] at hmeter heffect
    obtain ⟨hregion, hexc⟩ := region_eq hmeter rfl rfl
    have hreal : ¬c.Faked := by
      rintro ⟨hdiy, -⟩
      rw [hop] at hdiy
      cases hdiy
    cases heffect
    rw [effectRevert]
    split
    next hcond => exact .inr ⟨_, rfl, passed hcond.1 hexc⟩
    next => exact .inl ⟨congrArg _ hregion, hreal⟩
  · rw [hopcode, hop] at hmeter heffect
    obtain ⟨_, _, hthrow, hmem⟩ := run_bind_ok.mp hmeter
    obtain ⟨-, rfl⟩ := throwIf_ok.mp hthrow
    obtain ⟨hregion, hexc⟩ := region_eq hmem rfl rfl
    cases heffect
    refine .inr ⟨_, rfl, ?_⟩
    split
    next hpos => exact passed hpos hexc
    next hpos =>
      rw [hregion, fromInt_atoi_eq]
      have hle : c.vm.exception ≤ 0 := Int32.not_lt.mp fun hlt => hpos (hexc ▸ hlt)
      exact ⟨fun h0 => ⟨hop, hle, h0⟩, fun hfaked => hfaked.2.2⟩

theorem returns_revert (hop : c.opcode = .REVERT ∨ c.opcode = .REVERTDIY) (h : c.action env = some action) :
    ∃ gas, ∃ halt : Halt,
      Returns (Config.step env) c (.ok ⟨c.world, c.sub, halt⟩) ∧
        ((halt = ⟨.EVMC_REVERT, gas, c.revertText⟩ ∧ ¬c.Faked) ∨
          ∃ output, halt = ⟨.EVMC_REVERTDIY, gas, output⟩ ∧
            (TER.fromInt (atoi output) = tesSUCCESS ↔ c.Faked)) := by
  obtain ⟨vm, hrun⟩ := Config.action_run h
  have hstep : c.step env = c.act env vm action := by rw [Config.step, hrun]
  refine ⟨toInt64 vm.ioGas, ?_⟩
  rcases interpret_revert hop h with ⟨rfl, hreal⟩ | ⟨output, rfl, hfaked⟩
  · exact ⟨_, returns_iff.mpr (.inl (hstep ▸ gives_ret.mpr rfl)), .inl ⟨rfl, hreal⟩⟩
  · exact ⟨_, returns_iff.mpr (.inl (hstep ▸ gives_ret.mpr rfl)), .inr ⟨output, rfl, hfaked⟩⟩

theorem terToEvmcStatusCode_success : terToEvmcStatusCode ter = .EVMC_SUCCESS ↔ ter = tesSUCCESS := by
  rw [terToEvmcStatusCode]
  split
  next h => simp [h]
  next h =>
    simp only [h, iff_false]
    split
    · decide
    · split <;> decide

theorem catchResult_revert (e : Executive) (gas : Int) (output : Bytes) :
    (e.catchResult (.RevertInstruction gas output) = .error .exception ∧ e.depth = 1 ∧
        Executive.formatOutput output = none) ∨
      ∃ e', e.catchResult (.RevertInstruction gas output) = .ok e' ∧
        e'.excepted = tefCONTRACT_REVERT_INSTRUCTION := by
  rw [Executive.catchResult]
  split
  next hdepth =>
    split
    next htext => exact .inl ⟨rfl, hdepth, htext⟩
    next => exact .inr ⟨_, rfl, rfl⟩
  next => exact .inr ⟨_, rfl, rfl⟩

theorem goEnd_of_not_returns {ext : Ext} {ended : Ended σ} (h : ∀ gas out, VMC.exec ended.halt ≠ .returns gas out) :
    e.goEnd ext ended =
      (e.catchResult (VMC.exec ended.halt)).map fun e' => (ended.world, ended.sub, e') := by
  rw [Executive.goEnd]
  split
  next hreturns => exact absurd hreturns (h _ _)
  next => rfl

theorem goEnd_revert (w : World σ) (sub : SubState) (e : Executive) (ext : Ext) {gas : Int} {halt : Halt}
    (h : (halt = ⟨.EVMC_REVERT, gas, c.revertText⟩ ∧ ¬c.Faked) ∨
      ∃ output, halt = ⟨.EVMC_REVERTDIY, gas, output⟩ ∧
        (TER.fromInt (atoi output) = tesSUCCESS ↔ c.Faked)) :
    (e.goEnd ext ⟨w, sub, halt⟩ = .error .exception ∧ e.depth = 1 ∧
        Executive.formatOutput c.revertText = none ∧ ¬c.Faked) ∨
      ∃ e', e.goEnd ext ⟨w, sub, halt⟩ = .ok (w, sub, e') ∧ (e'.excepted = tesSUCCESS ↔ c.Faked) := by
  have hrevert : ¬tefCONTRACT_REVERT_INSTRUCTION = tesSUCCESS := by decide
  rcases h with ⟨rfl, hreal⟩ | ⟨output, rfl, hfaked⟩
  · have hend : e.goEnd ext ⟨w, sub, ⟨.EVMC_REVERT, gas, c.revertText⟩⟩ =
        (e.catchResult (.RevertInstruction gas c.revertText)).map fun e' => (w, sub, e') :=
      goEnd_of_not_returns (by rintro _ _ ⟨⟩)
    rw [hend]
    rcases catchResult_revert e gas c.revertText with ⟨hthrow, hdepth, htext⟩ | ⟨e', he', hexcepted⟩
    · rw [hthrow]
      exact .inl ⟨rfl, hdepth, htext, hreal⟩
    · rw [he']
      exact .inr ⟨e', rfl, by simp only [hexcepted, hrevert, hreal]⟩
  · refine .inr ⟨{ e with gas }.fail (.fromInt (atoi output)), ?_, hfaked⟩
    exact goEnd_of_not_returns (by rintro _ _ ⟨⟩)

theorem finalize_success {sub : SubState} (h : e.finalize env w sub = .ok (ter, w')) (hter : ter = tesSUCCESS) :
    e.excepted = tesSUCCESS := by
  rw [Executive.finalize] at h
  cases hremove : Executive.removeAll env
      (SleOps.addBalance w env.tx.account (Executive.givenBack env e sub)) sub.selfdestruct with
  | error crash =>
    simp only [hremove] at h
    cases h
  | ok removed =>
    simp only [hremove] at h
    obtain ⟨hif, -⟩ := Prod.mk.inj (Except.ok.inj h)
    rw [hter] at hif
    split at hif
    next hne => exact absurd hif hne
    next => exact hif

/-- A revert is reported as a success if and only if it is faked, to the parent of the frame as well as
to the transaction. The text of the outermost frame may be such that its Executive throws. -/
theorem revert_reported {e : Executive} {inner : Ext}
    (hreach : Relation.ReflTransGen (Next (Config.step env)) (.start inner e.gas (e.goWorld w inner)) c)
    (hop : c.opcode = .REVERT ∨ c.opcode = .REVERTDIY) (haction : (c.action env).isSome) :
    (∃ r, Gives (Config.step env) (e.go w inner) r ∧
      ((r = .error .exception ∧ e.depth = 1 ∧ Executive.formatOutput c.revertText = none ∧ ¬c.Faked) ∨
        ∃ w' sub' e', r = .ok (w', sub', e') ∧ (e'.excepted = tesSUCCESS ↔ c.Faked) ∧
          ((EvmCHost.callResult e').statusCode = .EVMC_SUCCESS ↔ c.Faked) ∧
          ((EvmCHost.createResult e').statusCode = .EVMC_SUCCESS ↔ c.Faked))) ∧
    (∀ w₀ ter w', Executive.execute env w₀ = .ok (w, e) → e.ext = some inner →
      Gives (Config.step env) (doApply env w₀) (.ok (ter, w')) → ter = tesSUCCESS → c.Faked) := by
  obtain ⟨action, haction⟩ := Option.isSome_iff_exists.mp haction
  obtain ⟨gas, halt, hreturns, hhalt⟩ := returns_revert hop haction
  have hgo : Gives (Config.step env) (e.go w inner) (e.goEnd inner ⟨c.world, c.sub, halt⟩) :=
    gives_call.mpr ⟨_, hreturns.of_reach hreach, rfl⟩
  have hend := goEnd_revert c.world c.sub e inner hhalt
  refine ⟨⟨_, hgo, ?_⟩, ?_⟩
  · rcases hend with h | ⟨e', he', hfaked⟩
    · exact .inl h
    · refine .inr ⟨_, _, e', he', hfaked, ?_, ?_⟩
      · exact terToEvmcStatusCode_success.trans hfaked
      · exact terToEvmcStatusCode_success.trans hfaked
  · intro w₀ ter w' hexecute hext happly hter
    rw [doApply, hexecute] at happly
    dsimp only at happly
    rw [hext] at happly
    obtain ⟨r, hr, hfinal⟩ := gives_map.mp happly
    obtain rfl := hr.unique hgo
    rcases hend with ⟨herror, -⟩ | ⟨e', he', hfaked⟩
    · rw [herror] at hfinal
      cases hfinal
    · rw [he'] at hfinal
      refine hfaked.mp ?_
      exact finalize_success hfinal hter

def Config.stepped (env : Env σ) (c : Config σ) : Option (Config σ) :=
  match c.step env with
  | .ret (.inl c') => some c'
  | _ => none

theorem next_stepped {c' : Config σ} (h : c.stepped env = some c') : Next (Config.step env) c c' := by
  unfold Config.stepped at h
  split at h
  next hstep =>
    cases h
    rw [Next, hstep, gives_ret]
  next => cases h

def revertingExt (code : Bytes) : Ext where
  myAddress := 100
  caller := 7
  origin := 7
  value := 0
  gasPrice := 1
  data := []
  code
  depth := 1
  isCreate := false
  staticCall := false

def revertingExecutive (code : Bytes) : Executive :=
  { Executive.start 1 with gas := 50000, ext := some (revertingExt code) }

def revertingLedger (code : Bytes) : World Unit :=
  ledgerOf [(7, plainRoot 1000000 none), (100, plainRoot 0 (some code))]

theorem revert_reported_empty : ∃ w' sub' e',
    Gives (Config.step plainCall)
      ((revertingExecutive [0x60, 0, 0x60, 0, 0xfd]).go (revertingLedger [0x60, 0, 0x60, 0, 0xfd])
        (revertingExt [0x60, 0, 0x60, 0, 0xfd])) (.ok (w', sub', e')) ∧ e'.excepted ≠ tesSUCCESS := by
  let start : Config Unit := .start (revertingExt [0x60, 0, 0x60, 0, 0xfd]) 50000
    (revertingLedger [0x60, 0, 0x60, 0, 0xfd])
  have hrun : ((start.stepped plainCall).bind (Config.stepped plainCall)).any
      (fun c => c.opcode = .REVERT ∧ (c.action plainCall).isSome ∧ c.revertText = []) = true := by
    decide +kernel
  obtain ⟨c, hc, hprops⟩ := Option.any_eq_true _ _ |>.mp hrun
  obtain ⟨c₁, hc₁, hc⟩ := Option.bind_eq_some_iff.mp hc
  obtain ⟨hop, haction, htext⟩ := of_decide_eq_true hprops
  have hreach := (Relation.ReflTransGen.single (next_stepped hc₁)).tail (next_stepped hc)
  obtain ⟨⟨r, hr, hcases⟩, -⟩ := revert_reported (e := revertingExecutive [0x60, 0, 0x60, 0, 0xfd])
    (w := revertingLedger [0x60, 0, 0x60, 0, 0xfd]) hreach (.inl hop) haction
  rcases hcases with ⟨-, -, hnone, -⟩ | ⟨w', sub', e', rfl, hfaked, -⟩
  · rw [htext] at hnone
    cases hnone
  · refine ⟨w', sub', e', hr, fun hsuccess => ?_⟩
    have hdiy := (hfaked.mp hsuccess).1
    rw [hop] at hdiy
    cases hdiy

def fakedCode : Bytes := [0x60, 0x6e, 0x60, 0, 0x53, 0x60, 1, 0x60, 0, 0xd1]

/-- The contract reverts with the text `n`, and the transaction succeeds. -/
theorem text_revert_succeeds :
    Gives (Config.step plainCall)
      ((doApply plainCall (revertingLedger fakedCode)).map fun r => r.toOption.map Prod.fst)
      (some tesSUCCESS) ∧
    (passed (Config.step plainCall) 10 (doApply plainCall (revertingLedger fakedCode))).map Config.opcode =
      [.PUSH 1, .PUSH 1, .MSTORE8, .PUSH 1, .PUSH 1, .REVERTDIY] :=
  ⟨⟨10, by decide +kernel⟩, by decide +kernel⟩

end Chainsql.Evm
