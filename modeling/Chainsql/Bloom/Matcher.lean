import Chainsql.Bloom.Indexer
import Chainsql.Lib.Fuel

/-!
# Matching a range of ledgers against the index

`execute` computes for each section a vector of the ledgers whose filters match, and then walks over the
ledgers of the range. In the walk eight ledgers are skipped at once where a byte of the vector is zero. The
numbers of the ledgers are of 32 bits and wrap around, so that a walk need not end: the loops have fuel.
-/

namespace Chainsql.Bloom

open Evm (Bytes)

def sub32 (a b : Nat) : Nat := (a + 2 ^ 32 - b % 2 ^ 32) % 2 ^ 32

section

variable (bloomStart : Nat)

def getSectionBySeq (seq : Nat) : Nat := sub32 seq bloomStart / DEFAULT_SECTION_SIZE

/-- The section of a ledger, and its byte and its bit in the vectors of the section. -/
def getLedgerLocation (seq : Nat) : Nat × Nat × Nat :=
  let sec := getSectionBySeq bloomStart seq
  let index := sub32 seq (bloomStart + sec * DEFAULT_SECTION_SIZE)
  (sec, index / 8, 7 - index % 8)

/-- Both blobs have one size. -/
def AndBlob (a b : Blob) : Blob := List.zipWith (· &&& ·) a b

def OrBlob (a b : Blob) : Blob := List.zipWith (· ||| ·) a b

variable (hash : Hash)

def calcBloomIndexes (s : Bytes) : List Nat :=
  (List.range 3).map fun i => ((hashByte hash s (2 * i)).toNat <<< 8 &&& 2047) + (hashByte hash s (2 * i + 1)).toNat

def newMatcher (filters : List (List Bytes)) : List (List (List Nat)) :=
  (filters.filter fun f => !f.isEmpty).map (List.map (calcBloomIndexes hash))

variable (chain : LedgerMaster) (ix : Indexer)

def subMatch (sec : Nat) (next : Blob) (bloom : List (List Nat)) : Blob :=
  let orResult := bloom.foldl (fun orResult index =>
    let andResult := index.foldl (fun andResult bit =>
      let blob := getBloomBits bloomStart chain ix bit sec
      if andResult.isEmpty then blob else AndBlob andResult blob) []
    if orResult.isEmpty then andResult else OrBlob orResult andResult) []
  let orResult := if orResult.isEmpty then List.replicate (DEFAULT_SECTION_SIZE / 8) 0#8 else orResult
  if next.isEmpty then orResult else AndBlob orResult next

def partialMatch (filters : List (List (List Nat))) (sec : Nat) : Blob :=
  filters.foldl (subMatch bloomStart chain ix sec) (List.replicate (DEFAULT_SECTION_SIZE / 8) 0xFF#8)

def byteOf (blob : Blob) (seq : Nat) : BitVec 8 := blob.getD (getLedgerLocation bloomStart seq).2.1 0#8

def matchLedgers (blob : Blob) (last : Nat) : Nat → Nat → Option (List Nat)
  | 0, _ => none
  | fuel + 1, i =>
    if last < i then some []
    else if byteOf bloomStart blob i = 0#8 then
      matchLedgers blob last fuel ((if i % 8 = 0 then i + 7 + 1 else i + 1) % 2 ^ 32)
    else do
      let rest ← matchLedgers blob last fuel ((i + 1) % 2 ^ 32)
      return if (byteOf bloomStart blob i).getLsbD (getLedgerLocation bloomStart i).2.2 then i :: rest else rest

def matchSection (filters : List (List (List Nat))) (fuel first last sec : Nat) : Option (List Nat) :=
  let sectionStart := (getSectionRange bloomStart sec).1
  let sectionEnd := (getSectionRange bloomStart sec).2
  matchLedgers bloomStart (partialMatch bloomStart chain ix filters sec)
    (if last < sectionEnd then last else sectionEnd) fuel (if sectionStart < first then first else sectionStart)

def matchSections (filters : List (List (List Nat))) (fuel first last : Nat) : List Nat → Option (List Nat)
  | [] => some []
  | sec :: rest => do
    let matched ← matchSection bloomStart chain ix filters fuel first last sec
    return matched ++ (← matchSections filters fuel first last rest)

def execute (filters : List (List (List Nat))) (fuel first last : Nat) : Option (List Nat) :=
  let fromSections := getSectionBySeq bloomStart first
  let toSections := getSectionBySeq bloomStart last
  matchSections bloomStart chain ix filters fuel first last (List.range' fromSections (toSections + 1 - fromSections))

end

/-! ## The vector of a section -/

variable {bloomStart : Nat} {hash : Hash} {chain : LedgerMaster} {ix : Indexer}

theorem calcBloomIndexes_eq (s : Bytes) : calcBloomIndexes hash s = positions hash s := by
  have hindex : ∀ b₀ b₁ : BitVec 8, (b₀.toNat <<< 8 &&& 2047) + b₁.toNat = position b₀ b₁ := by
    intro b₀ b₁
    rw [show (2047 : Nat) = 2 ^ 11 - 1 from rfl, Nat.and_two_pow_sub_one_eq_mod, position]
    omega
  simp only [calcBloomIndexes, hindex]
  rfl

variable {a b : Blob} {f : BitVec 8 → BitVec 8 → BitVec 8} {ι : Type} {x seq : Nat}

theorem getD_zipWith (hf : f 0#8 0#8 = 0#8) (h : a.length = b.length) (i : Nat) :
    (List.zipWith f a b).getD i 0#8 = f (a.getD i 0#8) (b.getD i 0#8) := by
  simp only [List.getD_eq_getElem?_getD, List.getElem?_zipWith]
  by_cases hi : i < a.length
  · rw [List.getElem?_eq_getElem hi, List.getElem?_eq_getElem (h ▸ hi)]
    rfl
  · rw [List.getElem?_eq_none (Nat.le_of_not_lt hi), List.getElem?_eq_none (h ▸ Nat.le_of_not_lt hi)]
    exact hf.symm

theorem bitAt_AndBlob (h : a.length = b.length) (x : Nat) :
    Blob.bitAt (AndBlob a b) x ↔ Blob.bitAt a x ∧ Blob.bitAt b x := by
  rw [Blob.bitAt, AndBlob, getD_zipWith rfl h, BitVec.getLsbD_and, Bool.and_eq_true]
  rfl

theorem bitAt_OrBlob (h : a.length = b.length) (x : Nat) :
    Blob.bitAt (OrBlob a b) x ↔ Blob.bitAt a x ∨ Blob.bitAt b x := by
  rw [Blob.bitAt, OrBlob, getD_zipWith rfl h, BitVec.getLsbD_or, Bool.or_eq_true]
  rfl

def Sized (blob : Blob) : Prop := blob.length = DEFAULT_SECTION_SIZE / 8

theorem Sized.isEmpty {blob : Blob} (h : Sized blob) : blob.isEmpty = false := by
  cases blob with
  | nil => cases h
  | cons => rfl

theorem Sized.zipWith (ha : Sized a) (hb : Sized b) : Sized (List.zipWith f a b) := by
  rw [Sized, List.length_zipWith, ha, hb, Nat.min_self]

/-- The loops of `subMatch` join the blobs of a list, the first of which replaces the empty blob. -/
theorem foldl_join {blobs : ι → Blob} {is : List ι} (his : is ≠ []) (hblobs : ∀ i ∈ is, Sized (blobs i))
    {motive : Blob → List ι → Prop} (hone : ∀ i ∈ is, motive (blobs i) [i])
    (hjoin : ∀ a done i, Sized a → motive a done → i ∈ is → motive (List.zipWith f a (blobs i)) (done ++ [i])) :
    Sized (is.foldl (fun a i => if a.isEmpty then blobs i else List.zipWith f a (blobs i)) []) ∧
      motive (is.foldl (fun a i => if a.isEmpty then blobs i else List.zipWith f a (blobs i)) []) is := by
  induction is using List.reverseRecOn with
  | nil => exact absurd rfl his
  | append_singleton is i ih =>
    rw [List.foldl_append]
    have hi : i ∈ is ++ [i] := List.mem_append_right _ List.mem_cons_self
    by_cases hnil : is = []
    · subst hnil
      exact ⟨hblobs i hi, hone i hi⟩
    · obtain ⟨hsized, hmotive⟩ := ih hnil (fun j hj => hblobs j (List.mem_append_left _ hj))
        (fun j hj => hone j (List.mem_append_left _ hj))
        (fun a done j ha hm hj => hjoin a done j ha hm (List.mem_append_left _ hj))
      simp only [List.foldl_cons, List.foldl_nil, hsized.isEmpty, Bool.false_eq_true, if_false]
      exact ⟨hsized.zipWith (hblobs i hi), hjoin _ is i hsized hmotive hi⟩

theorem foldl_AndBlob (is : List ι) (blobs : ι → Blob) (his : is ≠ []) (hblobs : ∀ i ∈ is, Sized (blobs i)) (x : Nat) :
    Sized (is.foldl (fun a i => if a.isEmpty then blobs i else AndBlob a (blobs i)) []) ∧
      (Blob.bitAt (is.foldl (fun a i => if a.isEmpty then blobs i else AndBlob a (blobs i)) []) x ↔
        ∀ i ∈ is, Blob.bitAt (blobs i) x) := by
  refine foldl_join (motive := fun a done => Blob.bitAt a x ↔ ∀ i ∈ done, Blob.bitAt (blobs i) x) his hblobs ?_ ?_
  · intro i _
    simp
  · intro a done i ha hm hi
    refine (bitAt_AndBlob (ha.trans (hblobs i hi).symm) x).trans ?_
    rw [hm]
    simp [or_imp, forall_and]

theorem foldl_OrBlob (is : List ι) (blobs : ι → Blob) (his : is ≠ []) (hblobs : ∀ i ∈ is, Sized (blobs i)) (x : Nat) :
    Sized (is.foldl (fun a i => if a.isEmpty then blobs i else OrBlob a (blobs i)) []) ∧
      (Blob.bitAt (is.foldl (fun a i => if a.isEmpty then blobs i else OrBlob a (blobs i)) []) x ↔
        ∃ i ∈ is, Blob.bitAt (blobs i) x) := by
  refine foldl_join (motive := fun a done => Blob.bitAt a x ↔ ∃ i ∈ done, Blob.bitAt (blobs i) x) his hblobs ?_ ?_
  · intro i _
    simp
  · intro a done i ha hm hi
    refine (bitAt_OrBlob (ha.trans (hblobs i hi).symm) x).trans ?_
    rw [hm]
    simp [or_and_right, exists_or]

theorem bitAt_replicate_zero (n x : Nat) : ¬Blob.bitAt (List.replicate n 0#8) x := by
  rw [Blob.bitAt, List.getD_eq_getElem?_getD, List.getElem?_replicate]
  split <;> simp

theorem bitAt_replicate_ones (hx : x < DEFAULT_SECTION_SIZE) :
    Blob.bitAt (List.replicate (DEFAULT_SECTION_SIZE / 8) 0xFF#8) x := by
  have hlt : x / 8 < DEFAULT_SECTION_SIZE / 8 := by
    unfold DEFAULT_SECTION_SIZE at hx ⊢
    omega
  rw [Blob.bitAt, List.getD_eq_getElem?_getD, List.getElem?_replicate, if_pos hlt]
  have hall : ∀ k < 8, (0xFF#8).getLsbD (7 - k) = true := by decide
  exact hall _ (Nat.mod_lt _ (by decide))

theorem foldl_nil_blob (is : List ι) :
    is.foldl (fun (a : Blob) _ => if a.isEmpty then [] else List.zipWith f a []) [] = [] := by
  induction is with
  | nil => rfl
  | cons i is ih => exact ih

/-- What a filter asks of a ledger: that some datum of it is found. -/
def Found (hash : Hash) (chain : LedgerMaster) (seq : Nat) (f : List Bytes) : Prop :=
  ∃ datum ∈ f, ∃ ledger, chain seq = some ledger ∧ bloomLookup hash ledger.bloom datum = true

theorem hasBit_positions {datum : Bytes} :
    (∀ b ∈ positions hash datum, HasBit chain seq b) ↔
      ∃ ledger, chain seq = some ledger ∧ bloomLookup hash ledger.bloom datum = true := by
  simp only [HasBit, bloomLookup, test_iff]
  constructor
  · intro h
    obtain ⟨ledger, hledger, -⟩ := h _ List.mem_cons_self
    refine ⟨ledger, hledger, fun b hb => ?_⟩
    obtain ⟨ledger', hledger', hbit⟩ := h b hb
    rw [hledger] at hledger'
    cases hledger'
    exact hbit
  · rintro ⟨ledger, hledger, hbits⟩ b hb
    exact ⟨ledger, hledger, hbits b hb⟩

/-- `subMatch` keeps the ledgers of a stored section for which the filter is found. -/
theorem Indexed.subMatch (hix : Indexed bloomStart chain ix) (hash : Hash) (sec : Nat) (hx : x < DEFAULT_SECTION_SIZE)
    {next : Blob} (hnext : Sized next) {f : List Bytes} (hf : f ≠ []) :
    Sized (subMatch bloomStart chain ix sec next (f.map (calcBloomIndexes hash))) ∧
      (Blob.bitAt (subMatch bloomStart chain ix sec next (f.map (calcBloomIndexes hash))) x ↔
        Blob.bitAt next x ∧ sec < ix.storedSections ∧
          Found hash chain (bloomStart + sec * DEFAULT_SECTION_SIZE + x) f) := by
  simp only [Bloom.subMatch, hnext.isEmpty, Bool.false_eq_true, if_false, List.foldl_map, calcBloomIndexes_eq]
  by_cases hsec : sec < ix.storedSections
  · have hand : ∀ datum ∈ f, _ := fun datum _ =>
      foldl_AndBlob (positions hash datum) (fun b => getBloomBits bloomStart chain ix b sec)
        (List.cons_ne_nil _ _) (fun b hb => ((hix.stored sec hsec).bits b (positions_lt hash datum hb)).1) x
    obtain ⟨hsized, hor⟩ := foldl_OrBlob f (fun datum => (positions hash datum).foldl
      (fun a b => if a.isEmpty then getBloomBits bloomStart chain ix b sec
        else AndBlob a (getBloomBits bloomStart chain ix b sec)) []) hf (fun datum hd => (hand datum hd).1) x
    simp only [hsized.isEmpty, Bool.false_eq_true, if_false]
    refine ⟨hsized.zipWith hnext, ?_⟩
    rw [bitAt_AndBlob (hsized.trans hnext.symm), hor, and_comm]
    refine and_congr Iff.rfl ((and_iff_right hsec).trans (exists_congr fun datum => ?_)).symm
    refine and_congr_right fun hd => ?_
    rw [(hand datum hd).2, ← hasBit_positions]
    exact forall₂_congr fun b hb =>
      (((hix.stored sec hsec).bits b (positions_lt hash datum hb)).2 x hx).symm
  · have hbits : ∀ b, getBloomBits bloomStart chain ix b sec = [] :=
      hix.getBloomBits_fresh (Nat.le_of_not_lt hsec)
    simp only [hbits, AndBlob, OrBlob, foldl_nil_blob, List.isEmpty_nil, if_true]
    have hzero : Sized (List.replicate (DEFAULT_SECTION_SIZE / 8) 0#8) := List.length_replicate
    refine ⟨hzero.zipWith hnext, ?_⟩
    refine (bitAt_AndBlob (hzero.trans hnext.symm) x).trans ?_
    simp only [bitAt_replicate_zero, hsec, false_and, and_false]

theorem Indexed.partialMatch (hix : Indexed bloomStart chain ix) {sec : Nat} (hx : x < DEFAULT_SECTION_SIZE)
    {filters : List (List Bytes)} (hfilters : ∀ f ∈ filters, f ≠ []) :
    Blob.bitAt (partialMatch bloomStart chain ix (newMatcher hash filters) sec) x ↔
      ∀ f ∈ filters, sec < ix.storedSections ∧
        Found hash chain (bloomStart + sec * DEFAULT_SECTION_SIZE + x) f := by
  have hkeep : filters.filter (fun f => !f.isEmpty) = filters :=
    List.filter_eq_self.mpr fun f hf => by simp [hfilters f hf]
  have hfold : ∀ next, Sized next →
      (Blob.bitAt ((filters.map (List.map (calcBloomIndexes hash))).foldl (Bloom.subMatch bloomStart chain ix sec)
        next) x ↔ Blob.bitAt next x ∧ ∀ f ∈ filters, sec < ix.storedSections ∧
          Found hash chain (bloomStart + sec * DEFAULT_SECTION_SIZE + x) f) := by
    clear hkeep
    induction filters with
    | nil => simp
    | cons f filters ih =>
      intro next hnext
      obtain ⟨hsized, hbit⟩ := hix.subMatch hash sec hx hnext (hfilters f List.mem_cons_self)
      rw [List.map_cons, List.foldl_cons, ih (fun f hf => hfilters f (List.mem_cons_of_mem _ hf)) _ hsized, hbit,
        List.forall_mem_cons, and_assoc]
  rw [Bloom.partialMatch, newMatcher, hkeep, hfold _ List.length_replicate]
  exact and_iff_right (bitAt_replicate_ones hx)

/-! ## The walk over a section -/

theorem getLedgerLocation_eq (hstart : bloomStart ≤ seq) (hseq : seq < 2 ^ 32) :
    getLedgerLocation bloomStart seq = ((seq - bloomStart) / DEFAULT_SECTION_SIZE,
      (seq - bloomStart) % DEFAULT_SECTION_SIZE / 8, 7 - (seq - bloomStart) % DEFAULT_SECTION_SIZE % 8) := by
  have hsec : getSectionBySeq bloomStart seq = (seq - bloomStart) / DEFAULT_SECTION_SIZE := by
    unfold getSectionBySeq sub32
    congr 1
    omega
  have hindex : sub32 seq (bloomStart + (seq - bloomStart) / DEFAULT_SECTION_SIZE * DEFAULT_SECTION_SIZE) =
      (seq - bloomStart) % DEFAULT_SECTION_SIZE := by
    unfold sub32 DEFAULT_SECTION_SIZE
    omega
  simp only [getLedgerLocation, hsec, hindex]

/-- A loop returns the ledgers for which something holds, in order. -/
def Reports (out : Option (List Nat)) (P : Nat → Prop) : Prop :=
  ∃ matched, out = some matched ∧ matched.Pairwise (· < ·) ∧ ∀ i, i ∈ matched ↔ P i

theorem Reports.congr {out : Option (List Nat)} {P Q : Nat → Prop} (h : Reports out P) (hiff : ∀ i, P i ↔ Q i) :
    Reports out Q := by
  obtain ⟨matched, hout, hsorted, hmem⟩ := h
  exact ⟨matched, hout, hsorted, fun i => (hmem i).trans (hiff i)⟩

section Walk

variable {blob : Blob} {first last i : Nat}

abbrev JumpedOver (bloomStart : Nat) (blob : Blob) (first i : Nat) : Prop :=
  i % 8 ≠ 0 ∧ first ≤ 8 * (i / 8) ∧ byteOf bloomStart blob (8 * (i / 8)) = 0#8

abbrev BitSet (bloomStart : Nat) (blob : Blob) (i : Nat) : Prop :=
  (byteOf bloomStart blob i).getLsbD (getLedgerLocation bloomStart i).2.2 = true

theorem not_bitSet_of_zero (h : byteOf bloomStart blob i = 0#8) : ¬BitSet bloomStart blob i := by
  rw [BitSet, h]
  simp

/-- The ledger after one that is reached is reached, unless a zero byte begins with the latter. -/
theorem not_jumpedOver_succ (hi : ¬JumpedOver bloomStart blob first i)
    (hbyte : i % 8 = 0 → byteOf bloomStart blob i ≠ 0#8) : ¬JumpedOver bloomStart blob first (i + 1) := by
  rintro ⟨hmod, hfirst, hzero⟩
  have hblock : (i + 1) / 8 = i / 8 := by omega
  rw [hblock] at hfirst hzero
  by_cases hmod' : i % 8 = 0
  · have hself : 8 * (i / 8) = i := by omega
    rw [hself] at hzero
    exact hbyte hmod' hzero
  · exact hi ⟨hmod', hfirst, hzero⟩

/-- A walk that does not wrap around reports the ledgers with their bit set that it does not jump over. -/
theorem matchLedgers_reports (hlast : last < 2 ^ 32 - 1)
    (hwrap : first ≤ 2 ^ 32 - 8 → 2 ^ 32 - 8 ≤ last → byteOf bloomStart blob (2 ^ 32 - 8) ≠ 0#8)
    (hfirst : first ≤ i) (hi : ¬JumpedOver bloomStart blob first i) {fuel : Nat} (hfuel : last + 1 - i < fuel) :
    Reports (matchLedgers bloomStart blob last fuel i) fun j =>
      (i ≤ j ∧ j ≤ last) ∧ BitSet bloomStart blob j ∧ ¬JumpedOver bloomStart blob first j := by
  induction fuel generalizing i with
  | zero => exact absurd hfuel (Nat.not_lt_zero _)
  | succ fuel ih =>
    unfold matchLedgers
    by_cases hend : last < i
    · rw [if_pos hend]
      exact ⟨[], rfl, .nil, fun j => iff_of_false List.not_mem_nil fun hj => by omega⟩
    rw [if_neg hend]
    by_cases hzero : byteOf bloomStart blob i = 0#8
    · have hbit := not_bitSet_of_zero hzero
      rw [if_pos hzero]
      by_cases hmod : i % 8 = 0
      · -- the seven ledgers after this one are jumped over
        have hin : i + 7 + 1 < 2 ^ 32 := by
          by_contra hout
          have heq : i = 2 ^ 32 - 8 := by omega
          exact hwrap (heq ▸ hfirst) (by omega) (heq ▸ hzero)
        rw [if_pos hmod]
        refine (ih (by omega) (by rintro ⟨hmod', -⟩; omega) (by omega)).congr fun j =>
          and_congr_left fun ⟨hset, hnot⟩ => ⟨by omega, fun hj => ⟨?_, hj.2⟩⟩
        have hji : j ≠ i := fun heq => hbit (heq ▸ hset)
        by_contra hlt
        have hblock : 8 * (j / 8) = i := by omega
        exact hnot ⟨by omega, hblock ▸ hfirst, hblock ▸ hzero⟩
      · rw [if_neg hmod, Nat.mod_eq_of_lt (by omega)]
        refine (ih (by omega) (not_jumpedOver_succ hi fun h => absurd h hmod) (by omega)).congr fun j =>
          and_congr_left fun ⟨hset, _⟩ => ?_
        have hji : j ≠ i := fun heq => hbit (heq ▸ hset)
        omega
    · obtain ⟨rest, hrest, hsorted, hmem⟩ := ih (by omega) (not_jumpedOver_succ hi fun _ => hzero) (by omega)
      rw [if_neg hzero, Nat.mod_eq_of_lt (by omega), hrest]
      refine ⟨_, rfl, ?_⟩
      by_cases hset : BitSet bloomStart blob i
      · rw [if_pos hset]
        refine ⟨List.pairwise_cons.mpr ⟨fun j hj => ((hmem j).mp hj).1.1, hsorted⟩, fun j => ?_⟩
        rw [List.mem_cons, hmem]
        by_cases hji : j = i
        · subst hji
          exact iff_of_true (.inl rfl) ⟨by omega, hset, hi⟩
        · rw [or_iff_right hji]
          exact and_congr_left fun _ => by omega
      · rw [if_neg hset]
        refine ⟨hsorted, fun j => (hmem j).trans (and_congr_left fun ⟨hset', _⟩ => ?_)⟩
        have hji : j ≠ i := fun heq => hset (heq ▸ hset')
        omega

theorem matchLedgers_eq_none (hlast : 2 ^ 32 - 8 ≤ last) (hzero : byteOf bloomStart blob (2 ^ 32 - 8) = 0#8)
    (hi : i ≤ 2 ^ 32 - 8) (fuel : Nat) : matchLedgers bloomStart blob last fuel i = none := by
  induction fuel generalizing i with
  | zero => rfl
  | succ fuel ih =>
    unfold matchLedgers
    rw [if_neg (by omega)]
    by_cases hbyte : byteOf bloomStart blob i = 0#8
    · rw [if_pos hbyte]
      refine ih ?_
      split <;> omega
    · have hne : i ≠ 2 ^ 32 - 8 := fun heq => hbyte (heq ▸ hzero)
      rw [if_neg hbyte, ih (by omega)]
      rfl

end Walk

theorem matchLedgers_mono (blob : Blob) (last i : Nat) :
    Fuel.Mono fun fuel => matchLedgers bloomStart blob last fuel i := by
  intro fuel matched h
  induction fuel generalizing i matched with
  | zero => cases h
  | succ fuel ih =>
    simp only at h ih ⊢
    unfold matchLedgers at h ⊢
    by_cases hend : last < i
    · rw [if_pos hend] at h ⊢
      exact h
    · rw [if_neg hend] at h ⊢
      by_cases hzero : byteOf bloomStart blob i = 0#8
      · rw [if_pos hzero] at h ⊢
        exact ih _ _ h
      · rw [if_neg hzero] at h ⊢
        obtain ⟨rest, hrest, h⟩ := Option.bind_eq_some_iff.mp h
        exact Option.bind_eq_some_iff.mpr ⟨rest, ih _ _ hrest, h⟩

theorem execute_mono (filters : List (List (List Nat))) (first last : Nat) :
    Fuel.Mono fun fuel => execute bloomStart chain ix filters fuel first last := by
  have hsections : ∀ secs, Fuel.Mono fun fuel => matchSections bloomStart chain ix filters fuel first last secs := by
    intro secs
    induction secs with
    | nil => exact Fuel.mono_const _
    | cons sec secs ih => exact (matchLedgers_mono _ _ _).bind fun matched => ih.bind fun rest => Fuel.mono_const _
  exact hsections _

/-! ## What `execute` reports -/

section Execute

variable (bloomStart) in
/-- The section of a ledger ends before the numbers wrap around. -/
def Straight (i : Nat) : Prop :=
  bloomStart + ((i - bloomStart) / DEFAULT_SECTION_SIZE + 1) * DEFAULT_SECTION_SIZE ≤ 2 ^ 32

variable (bloomStart hash chain ix) (filters : List (List Bytes))

def Hit (i : Nat) : Prop :=
  ∀ f ∈ filters, (i - bloomStart) / DEFAULT_SECTION_SIZE < ix.storedSections ∧ Found hash chain i f

def Quiet (i : Nat) : Prop :=
  ∀ j, bloomStart ≤ j → (j - bloomStart) / 8 = (i - bloomStart) / 8 → ¬Hit bloomStart hash chain ix filters j

/-- `execute` for a range that begins with `first` jumps over a ledger. -/
def Jumped (first i : Nat) : Prop :=
  i % 8 ≠ 0 ∧ first ≤ 8 * (i / 8) ∧
    bloomStart + (i - bloomStart) / DEFAULT_SECTION_SIZE * DEFAULT_SECTION_SIZE ≤ 8 * (i / 8) ∧
      Quiet bloomStart hash chain ix filters (8 * (i / 8))

/-- `execute` starts again at ledger zero. -/
def Wraps (first last : Nat) : Prop :=
  first ≤ 2 ^ 32 - 8 ∧ 2 ^ 32 - 8 ≤ last ∧ Straight bloomStart (2 ^ 32 - 8) ∧
    Quiet bloomStart hash chain ix filters (2 ^ 32 - 8)

variable {bloomStart hash chain ix} {filters}

theorem eq_zero_iff (b : BitVec 8) : b = 0#8 ↔ ∀ k < 8, b.getLsbD (7 - k) = false := by
  constructor
  · rintro rfl k -
    simp
  · intro h
    refine BitVec.eq_of_getLsbD_eq fun k hk => ?_
    have hget := h (7 - k) (by omega)
    rw [show 7 - (7 - k) = k by omega] at hget
    simpa using hget

variable {i : Nat} (hix : Indexed bloomStart chain ix) (hfilters : ∀ f ∈ filters, f ≠ [])
  (hstart : bloomStart ≤ i) (hi : i < 2 ^ 32)

include hix hfilters

variable {sec fuel : Nat} {secs : List Nat}

theorem bitAt_partialMatch {j : Nat} (hj : bloomStart ≤ j) (hsec : (j - bloomStart) / DEFAULT_SECTION_SIZE = sec) :
    Blob.bitAt (partialMatch bloomStart chain ix (newMatcher hash filters) sec)
      ((j - bloomStart) % DEFAULT_SECTION_SIZE) ↔ Hit bloomStart hash chain ix filters j := by
  have hseq : bloomStart + sec * DEFAULT_SECTION_SIZE + (j - bloomStart) % DEFAULT_SECTION_SIZE = j := by
    subst hsec
    unfold DEFAULT_SECTION_SIZE
    omega
  rw [hix.partialMatch (Nat.mod_lt _ (by decide)) hfilters, hseq, Hit, hsec]

include hstart hi

theorem bitSet_iff_hit : BitSet bloomStart
    (partialMatch bloomStart chain ix (newMatcher hash filters) ((i - bloomStart) / DEFAULT_SECTION_SIZE)) i ↔
      Hit bloomStart hash chain ix filters i := by
  rw [← bitAt_partialMatch hix hfilters hstart rfl, BitSet, byteOf, getLedgerLocation_eq hstart hi]
  rfl

theorem byteOf_eq_zero_iff (hsec : (i - bloomStart) / DEFAULT_SECTION_SIZE = sec) :
    byteOf bloomStart (partialMatch bloomStart chain ix (newMatcher hash filters) sec) i = 0#8 ↔
      Quiet bloomStart hash chain ix filters i := by
  have hbit : ∀ j, bloomStart ≤ j → (j - bloomStart) / 8 = (i - bloomStart) / 8 →
      ((byteOf bloomStart (partialMatch bloomStart chain ix (newMatcher hash filters) sec) i).getLsbD
        (7 - (j - bloomStart) % DEFAULT_SECTION_SIZE % 8) = true ↔ Hit bloomStart hash chain ix filters j) := by
    intro j hj hblock
    have hsec' : (j - bloomStart) / DEFAULT_SECTION_SIZE = sec := by
      subst hsec
      unfold DEFAULT_SECTION_SIZE
      omega
    have hbyte : (j - bloomStart) % DEFAULT_SECTION_SIZE / 8 = (i - bloomStart) % DEFAULT_SECTION_SIZE / 8 := by
      unfold DEFAULT_SECTION_SIZE
      omega
    rw [← bitAt_partialMatch hix hfilters hj hsec', Blob.bitAt, hbyte, byteOf, getLedgerLocation_eq hstart hi]
  rw [eq_zero_iff]
  constructor
  · intro hzero j hj hblock hhit
    have hset := (hbit j hj hblock).mpr hhit
    rw [hzero _ (Nat.mod_lt _ (by decide))] at hset
    cases hset
  · intro hquiet k hk
    have hblock : (bloomStart + (8 * ((i - bloomStart) / 8) + k) - bloomStart) / 8 = (i - bloomStart) / 8 := by omega
    have hk' : (bloomStart + (8 * ((i - bloomStart) / 8) + k) - bloomStart) % DEFAULT_SECTION_SIZE % 8 = k := by
      unfold DEFAULT_SECTION_SIZE
      omega
    have hset := mt (hbit _ (by omega) hblock).mp (hquiet _ (by omega) hblock)
    rw [hk'] at hset
    simpa using hset

omit hstart hi

variable {first last : Nat} (hfirst : bloomStart ≤ first)

include hfirst

/-- What one section contributes. A section that wraps around contributes nothing. -/
theorem matchSection_spec (hlast : last < 2 ^ 32 - 1) (hwraps : ¬Wraps bloomStart hash chain ix filters first last)
    (hsec : bloomStart + sec * DEFAULT_SECTION_SIZE ≤ last) (hfuel : last + 1 < fuel) :
    Reports (matchSection bloomStart chain ix (newMatcher hash filters) fuel first last sec) fun i =>
      (first ≤ i ∧ i ≤ last) ∧ (i - bloomStart) / DEFAULT_SECTION_SIZE = sec ∧ Straight bloomStart i ∧
        Hit bloomStart hash chain ix filters i ∧ ¬Jumped bloomStart hash chain ix filters first i := by
  by_cases hfits : bloomStart + (sec + 1) * DEFAULT_SECTION_SIZE ≤ 2 ^ 32
  · rw [matchSection, getSectionRange_of_fits hfits]
    generalize hsectionStart : bloomStart + sec * DEFAULT_SECTION_SIZE = sectionStart at *
    have hin : ∀ i, sectionStart ≤ i ∧ i ≤ sectionStart + (DEFAULT_SECTION_SIZE - 1) ↔
        bloomStart ≤ i ∧ (i - bloomStart) / DEFAULT_SECTION_SIZE = sec := by
      intro i
      unfold DEFAULT_SECTION_SIZE at *
      omega
    have hstraight : ∀ i, (i - bloomStart) / DEFAULT_SECTION_SIZE = sec → Straight bloomStart i := by
      rintro i rfl
      exact hfits
    generalize hlo : (if sectionStart < first then first else sectionStart) = lo
    generalize hhi : (if last < sectionStart + (DEFAULT_SECTION_SIZE - 1) then last
      else sectionStart + (DEFAULT_SECTION_SIZE - 1)) = hi
    have hlo_le : ∀ i, lo ≤ i ↔ first ≤ i ∧ sectionStart ≤ i := by
      intro i
      split at hlo <;> omega
    have hle_hi : ∀ i, i ≤ hi ↔ i ≤ last ∧ i ≤ sectionStart + (DEFAULT_SECTION_SIZE - 1) := by
      intro i
      split at hhi <;> omega
    have hlast_hi := (hle_hi hi).mp le_rfl
    have hwrap : lo ≤ 2 ^ 32 - 8 → 2 ^ 32 - 8 ≤ hi →
        byteOf bloomStart (partialMatch bloomStart chain ix (newMatcher hash filters) sec) (2 ^ 32 - 8) ≠ 0#8 := by
      intro hle hge hzero
      obtain ⟨hle, hle'⟩ := (hlo_le _).mp hle
      obtain ⟨hge, hge'⟩ := (hle_hi _).mp hge
      obtain ⟨hstart, hsec'⟩ := (hin _).mp ⟨hle', hge'⟩
      exact hwraps ⟨hle, hge, hstraight _ hsec',
        (byteOf_eq_zero_iff hix hfilters hstart (by decide) hsec').mp hzero⟩
    refine (matchLedgers_reports (hlast_hi.1.trans_lt hlast) hwrap le_rfl (by rintro ⟨hmod, hle, -⟩; omega)
      (by omega)).congr fun i => ?_
    have hmem : lo ≤ i ∧ i ≤ hi ↔ (first ≤ i ∧ i ≤ last) ∧ (i - bloomStart) / DEFAULT_SECTION_SIZE = sec := by
      rw [hlo_le, hle_hi, and_and_and_comm, hin]
      exact and_congr_right fun hrange => and_iff_right (hfirst.trans hrange.1)
    rw [hmem, and_assoc]
    refine and_congr_right fun hrange => and_congr_right fun hsec' => ?_
    subst hsec'
    have hlt : i < 2 ^ 32 := by omega
    have hstart : bloomStart ≤ i := hfirst.trans hrange.1
    rw [and_iff_right (hstraight i rfl), bitSet_iff_hit hix hfilters hstart hlt]
    refine and_congr_right fun _ => not_congr (and_congr_right fun _ => ?_)
    rw [hlo_le, and_assoc, hsectionStart]
    refine and_congr_right fun _ => and_congr_right fun hge => ?_
    have hblock := (hin (8 * (i / 8))).mp ⟨hge, by have := ((hin i).mpr ⟨hstart, rfl⟩).2; omega⟩
    exact byteOf_eq_zero_iff hix hfilters hblock.1 (by omega) hblock.2
  · have hrange : (getSectionRange bloomStart sec).2 < (getSectionRange bloomStart sec).1 := by
      unfold getSectionRange
      unfold DEFAULT_SECTION_SIZE at hfits hsec ⊢
      omega
    have hnone : ∀ i, (i - bloomStart) / DEFAULT_SECTION_SIZE = sec → ¬Straight bloomStart i := by
      rintro i rfl
      exact hfits
    refine ⟨[], ?_, List.Pairwise.nil, fun i => ?_⟩
    · unfold matchSection
      obtain ⟨fuel, rfl⟩ : ∃ n, fuel = n + 1 := ⟨fuel - 1, by omega⟩
      rw [matchLedgers, if_pos]
      split <;> split <;> omega
    · constructor
      · intro h
        cases h
      · rintro ⟨-, hin, hstraight, -⟩
        exact absurd hstraight (hnone i hin)

theorem matchSections_spec (hlast : last < 2 ^ 32 - 1) (hwraps : ¬Wraps bloomStart hash chain ix filters first last)
    (hfuel : last + 1 < fuel) (hsorted : secs.Pairwise (· < ·))
    (hsecs : ∀ sec ∈ secs, bloomStart + sec * DEFAULT_SECTION_SIZE ≤ last) :
    Reports (matchSections bloomStart chain ix (newMatcher hash filters) fuel first last secs) fun i =>
      (first ≤ i ∧ i ≤ last) ∧ (i - bloomStart) / DEFAULT_SECTION_SIZE ∈ secs ∧ Straight bloomStart i ∧
        Hit bloomStart hash chain ix filters i ∧ ¬Jumped bloomStart hash chain ix filters first i := by
  induction secs with
  | nil => exact ⟨[], rfl, List.Pairwise.nil, fun i => by simp⟩
  | cons sec secs ih =>
    obtain ⟨hlt, hsorted⟩ := List.pairwise_cons.mp hsorted
    obtain ⟨here, hhere, hhere_sorted, hhere_mem⟩ :=
      matchSection_spec hix hfilters hfirst hlast hwraps (hsecs sec List.mem_cons_self) hfuel
    obtain ⟨rest, hrest, hrest_sorted, hrest_mem⟩ := ih hsorted fun s hs => hsecs s (List.mem_cons_of_mem _ hs)
    refine ⟨here ++ rest, ?_, ?_, fun i => ?_⟩
    · rw [matchSections, hhere, hrest]
      rfl
    · refine List.pairwise_append.mpr ⟨hhere_sorted, hrest_sorted, fun i hi j hj => ?_⟩
      have hisec := ((hhere_mem i).mp hi).2.1
      have hjsec := hlt _ ((hrest_mem j).mp hj).2.1
      by_contra hle
      have hdiv : (j - bloomStart) / DEFAULT_SECTION_SIZE ≤ (i - bloomStart) / DEFAULT_SECTION_SIZE :=
        Nat.div_le_div_right (by omega)
      omega
    · rw [List.mem_append, hhere_mem, hrest_mem]
      simp only [List.mem_cons, ← and_or_left, or_and_right]

omit hix hfilters hfirst in
theorem matchSections_eq_none {filters : List (List (List Nat))} (hsec : sec ∈ secs)
    (h : matchSection bloomStart chain ix filters fuel first last sec = none) :
    matchSections bloomStart chain ix filters fuel first last secs = none := by
  induction secs with
  | nil => cases hsec
  | cons s secs ih =>
    rcases List.mem_cons.mp hsec with rfl | hin
    · rw [matchSections, h]
      rfl
    · rw [matchSections, ih hin]
      cases matchSection bloomStart chain ix filters fuel first last s <;> rfl

omit hix hfilters hfirst in
theorem mem_sections {i : Nat} (hfirst : bloomStart ≤ first) (hlt : last < 2 ^ 32) (hle : first ≤ i) (hge : i ≤ last) :
    (i - bloomStart) / DEFAULT_SECTION_SIZE ∈ List.range' (getSectionBySeq bloomStart first)
      (getSectionBySeq bloomStart last + 1 - getSectionBySeq bloomStart first) := by
  have hsec : ∀ j, bloomStart ≤ j → j < 2 ^ 32 →
      getSectionBySeq bloomStart j = (j - bloomStart) / DEFAULT_SECTION_SIZE :=
    fun j hj hlt => congrArg Prod.fst (getLedgerLocation_eq hj hlt)
  rw [List.mem_range'_1, hsec first hfirst (by omega), hsec last (by omega) hlt]
  unfold DEFAULT_SECTION_SIZE
  omega

/-- `execute` reports the ledgers of the range that match, in order, but for those it jumps over. -/
theorem execute_spec (hle : first ≤ last) (hlast : last < 2 ^ 32 - 1)
    (hwraps : ¬Wraps bloomStart hash chain ix filters first last) (hfuel : last + 1 < fuel) :
    Reports (execute bloomStart chain ix (newMatcher hash filters) fuel first last) fun i =>
      (first ≤ i ∧ i ≤ last) ∧ Straight bloomStart i ∧ Hit bloomStart hash chain ix filters i ∧
        ¬Jumped bloomStart hash chain ix filters first i := by
  have hsecs : ∀ sec ∈ List.range' (getSectionBySeq bloomStart first)
      (getSectionBySeq bloomStart last + 1 - getSectionBySeq bloomStart first),
      bloomStart + sec * DEFAULT_SECTION_SIZE ≤ last := by
    intro sec hsec
    have hlast_sec : getSectionBySeq bloomStart last = (last - bloomStart) / DEFAULT_SECTION_SIZE :=
      congrArg Prod.fst (getLedgerLocation_eq (hfirst.trans hle) (by omega))
    rw [List.mem_range'_1, hlast_sec] at hsec
    unfold DEFAULT_SECTION_SIZE at hsec ⊢
    omega
  refine (matchSections_spec hix hfilters hfirst hlast hwraps hfuel List.pairwise_lt_range' hsecs).congr
    fun i => and_congr_right fun hrange => ?_
  exact and_iff_right (mem_sections hfirst (by omega) hrange.1 hrange.2)

theorem execute_eq_none (hlast : last < 2 ^ 32) (hwraps : Wraps bloomStart hash chain ix filters first last)
    (fuel : Nat) : execute bloomStart chain ix (newMatcher hash filters) fuel first last = none := by
  obtain ⟨hle, hge, hstraight, hquiet⟩ := hwraps
  refine matchSections_eq_none (mem_sections hfirst hlast hle hge) ?_
  rw [matchSection, getSectionRange_of_fits hstraight]
  have hzero := (byteOf_eq_zero_iff hix hfilters (hfirst.trans hle) (by decide) rfl).mpr hquiet
  refine matchLedgers_eq_none ?_ hzero ?_ fuel
  · unfold DEFAULT_SECTION_SIZE
    split <;> omega
  · unfold DEFAULT_SECTION_SIZE
    split <;> omega

end Execute

end Chainsql.Bloom
