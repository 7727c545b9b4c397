import TsEthereum.Engine.Honours

/-!
# What an identifier identifies

The payload that `PendingBlock.start` hashes is of fields of set lengths, of numbers without their
leading zeros, and of the withdrawals one after the other, with nothing in between. So what it is of
can be read back as long as the lengths of the numbers are known. Where they are not, the bytes of
one number may be those of the next one.
-/

namespace TsEthereum

namespace Engine

open TsEthereum.ChainConfig TsEthereum.Block

/-- How many bytes the numbers of a withdrawal have. -/
structure WithdrawalShape where
  index : ℕ
  validatorIndex : ℕ
  amount : ℕ
  deriving DecidableEq

/-- **How many bytes the numbers of a request have**: its time, and those of each withdrawal. -/
structure Shape where
  timestamp : ℕ
  withdrawals : List WithdrawalShape
  deriving DecidableEq

/-- Of a withdrawal. -/
def withdrawalShape (withdrawal : Withdrawal) : WithdrawalShape where
  index := (bigEndian withdrawal.index).length
  validatorIndex := (bigEndian withdrawal.validatorIndex).length
  amount := (bigEndian withdrawal.amount).length

/-- With an address of 20 bytes. -/
def WithdrawalShape.size (shape : WithdrawalShape) : ℕ :=
  shape.index + shape.validatorIndex + 20 + shape.amount

/-- The bytes that the time and the withdrawals have. -/
def Shape.size (shape : Shape) : ℕ :=
  shape.timestamp + (shape.withdrawals.map WithdrawalShape.size).sum

namespace StartRequest

variable (keccak256 : Bytes → Bytes32) (m : HardforkManager) (request : StartRequest)

def mixHashBuf : Bytes := (request.headerData.mixHash.map Subtype.val).getD (List.replicate 32 0)

def parentBeaconBlockRootBuf : Bytes :=
  (request.headerData.parentBeaconBlockRoot.map Subtype.val).getD (List.replicate 32 0)

def coinbaseBuf : Bytes := (request.headerData.coinbase.getD (repeated 0)).1

/-- **What is hashed.** -/
def payload : Bytes :=
  (request.parentBlock.computeHash keccak256 m).1 ++ request.mixHashBuf ++
    bigEndian request.headerData.timestamp ++
    bigEndian (Miner.pendingGasLimit m request.parentBlock) ++ request.parentBeaconBlockRootBuf ++
    request.coinbaseBuf ++ (request.withdrawals.getD []).flatMap withdrawalBuf

/-- The lengths of its numbers. -/
def shape : Shape where
  timestamp := (bigEndian request.headerData.timestamp).length
  withdrawals := (request.withdrawals.getD []).map withdrawalShape

@[simp] theorem length_mixHashBuf : request.mixHashBuf.length = 32 := by
  rw [mixHashBuf]
  cases request.headerData.mixHash with
  | none => exact List.length_replicate
  | some mixHash => exact mixHash.2

@[simp] theorem length_parentBeaconBlockRootBuf : request.parentBeaconBlockRootBuf.length = 32 := by
  rw [parentBeaconBlockRootBuf]
  cases request.headerData.parentBeaconBlockRoot with
  | none => exact List.length_replicate
  | some root => exact root.2

@[simp] theorem length_coinbaseBuf : request.coinbaseBuf.length = 20 :=
  (request.headerData.coinbase.getD (repeated 0)).2

end StartRequest

/-- **Two requests ask for the same**, where what is left out is what stands for it. -/
structure SameAttributes (request request' : StartRequest) : Prop where
  parentBlock : request.parentBlock = request'.parentBlock
  mixHash : request.mixHashBuf = request'.mixHashBuf
  timestamp : request.headerData.timestamp = request'.headerData.timestamp
  parentBeaconBlockRoot : request.parentBeaconBlockRootBuf = request'.parentBeaconBlockRootBuf
  coinbase : request.coinbaseBuf = request'.coinbaseBuf
  withdrawals : request.withdrawals.getD [] = request'.withdrawals.getD []

/-- **The identifiers, whole, tell two requests apart**, with a hash that tells their payloads and
their parents apart. -/
def ToldApart (keccak256 : Bytes → Bytes32) (m : HardforkManager)
    (request request' : StartRequest) : Prop :=
  Set.InjOn keccak256 {request.payload keccak256 m, request'.payload keccak256 m} →
  Set.InjOn (ValidatedHeader.computeHash keccak256 m) {request.parentBlock, request'.parentBlock} →
  keccak256 (request.payload keccak256 m) = keccak256 (request'.payload keccak256 m) →
  SameAttributes request request'

variable {keccak256 : Bytes → Bytes32} {m : HardforkManager} {request request' : StartRequest}

/-! ## Reading a payload back -/

theorem bigEndian_injective {n k : ℕ} (h : bigEndian n = bigEndian k) : n = k := by
  have hread := congrArg ofBigEndian h
  rwa [ofBigEndian_bigEndian, ofBigEndian_bigEndian] at hread

theorem length_withdrawalBuf (withdrawal : Withdrawal) :
    (withdrawalBuf withdrawal).length = (withdrawalShape withdrawal).size := by
  simp only [withdrawalBuf, List.length_append, withdrawal.address.2, WithdrawalShape.size,
    withdrawalShape]

theorem length_withdrawalsBuf (withdrawals : List Withdrawal) :
    (withdrawals.flatMap withdrawalBuf).length =
      ((withdrawals.map withdrawalShape).map WithdrawalShape.size).sum := by
  induction withdrawals with
  | nil => rfl
  | cons withdrawal withdrawals ih =>
    rw [List.flatMap_cons, List.length_append, ih, length_withdrawalBuf, List.map_cons,
      List.map_cons, List.sum_cons]

theorem eq_of_withdrawalBuf {withdrawal withdrawal' : Withdrawal}
    (hshape : withdrawalShape withdrawal = withdrawalShape withdrawal')
    (h : withdrawalBuf withdrawal = withdrawalBuf withdrawal') : withdrawal = withdrawal' := by
  obtain ⟨hindex, hvalidator, hamount⟩ := WithdrawalShape.mk.inj hshape
  rw [withdrawalBuf, withdrawalBuf, List.append_assoc, List.append_assoc, List.append_assoc,
    List.append_assoc] at h
  obtain ⟨h1, h⟩ := List.append_inj h hindex
  obtain ⟨h2, h⟩ := List.append_inj h hvalidator
  obtain ⟨h3, h4⟩ := List.append_inj h (withdrawal.address.2.trans withdrawal'.address.2.symm)
  cases withdrawal
  cases withdrawal'
  rw [Withdrawal.mk.injEq]
  exact ⟨bigEndian_injective h1, bigEndian_injective h2, Subtype.ext h3, bigEndian_injective h4⟩

theorem eq_of_withdrawalsBuf {withdrawals withdrawals' : List Withdrawal}
    (hshape : withdrawals.map withdrawalShape = withdrawals'.map withdrawalShape)
    (h : withdrawals.flatMap withdrawalBuf = withdrawals'.flatMap withdrawalBuf) :
    withdrawals = withdrawals' := by
  induction withdrawals generalizing withdrawals' with
  | nil => exact (List.map_eq_nil_iff.1 hshape.symm).symm
  | cons withdrawal withdrawals ih =>
    cases withdrawals' with
    | nil => cases hshape
    | cons withdrawal' withdrawals' =>
      obtain ⟨hhead, htail⟩ := List.cons.inj hshape
      rw [List.flatMap_cons, List.flatMap_cons] at h
      obtain ⟨hbuf, hbufs⟩ := List.append_inj h
        (by rw [length_withdrawalBuf, length_withdrawalBuf, hhead])
      rw [eq_of_withdrawalBuf hhead hbuf, ih htail hbufs]

theorem length_payload : (request.payload keccak256 m).length =
    32 + 32 + 32 + 20 + (bigEndian (Miner.pendingGasLimit m request.parentBlock)).length +
      request.shape.size := by
  simp only [StartRequest.payload, List.length_append, StartRequest.length_mixHashBuf,
    StartRequest.length_parentBeaconBlockRootBuf, StartRequest.length_coinbaseBuf,
    length_withdrawalsBuf, Shape.size, StartRequest.shape,
    (request.parentBlock.computeHash keccak256 m).2]
  omega

theorem sameAttributes_of_shape (hparent : request.parentBlock = request'.parentBlock)
    (hshape : request.shape = request'.shape)
    (h : request.payload keccak256 m = request'.payload keccak256 m) :
    SameAttributes request request' := by
  obtain ⟨htimestamp, hwithdrawals⟩ := Shape.mk.inj hshape
  simp only [StartRequest.payload, List.append_assoc, hparent] at h
  have h := List.append_cancel_left h
  obtain ⟨h1, h⟩ := List.append_inj h
    (request.length_mixHashBuf.trans request'.length_mixHashBuf.symm)
  obtain ⟨h2, h⟩ := List.append_inj h htimestamp
  have h := List.append_cancel_left h
  obtain ⟨h3, h⟩ := List.append_inj h (request.length_parentBeaconBlockRootBuf.trans
    request'.length_parentBeaconBlockRootBuf.symm)
  obtain ⟨h4, h5⟩ := List.append_inj h
    (request.length_coinbaseBuf.trans request'.length_coinbaseBuf.symm)
  exact ⟨hparent, h1, bigEndian_injective h2, h3, h4, eq_of_withdrawalsBuf hwithdrawals h5⟩

theorem parentBlock_eq (hparents : Set.InjOn (ValidatedHeader.computeHash keccak256 m)
      {request.parentBlock, request'.parentBlock})
    (h : request.payload keccak256 m = request'.payload keccak256 m) :
    request.parentBlock = request'.parentBlock := by
  simp only [StartRequest.payload, List.append_assoc] at h
  have hhash := (List.append_inj h ((request.parentBlock.computeHash keccak256 m).2.trans
    (request'.parentBlock.computeHash keccak256 m).2.symm)).1
  exact hparents (.inl rfl) (.inr rfl) (Subtype.ext hhash)

/-! ## Two readings of one payload -/

/-- The number of so many bytes that are all one. -/
def onesNumber (length : ℕ) : ℕ := ofBigEndian (List.replicate length 1)

@[simp] theorem bigEndian_onesNumber (length : ℕ) :
    bigEndian (onesNumber length) = List.replicate length 1 := by
  refine bigEndian_ofBigEndian ?_
  cases length with
  | zero => exact fun h => by cases h
  | succ length => exact fun h => absurd (Option.some.inj h) (by decide)

/-- A withdrawal of a shape. -/
def onesWithdrawal (shape : WithdrawalShape) : Withdrawal where
  index := onesNumber shape.index
  validatorIndex := onesNumber shape.validatorIndex
  address := repeated 1
  amount := onesNumber shape.amount

/-- A parent whose gas limit is of ones too, and that London does not come after. -/
def onesParent (m : HardforkManager) : ValidatedHeader :=
  { coreDefaults (if m.hardforkBlock .london = some 1 then 1 else 0) 0 with
    gasLimit := onesNumber 4 }

/-- **A request of a shape**, all of whose bytes are one. -/
def onesRequest (m : HardforkManager) (shape : Shape) : StartRequest where
  parentBlock := onesParent m
  headerData :=
    { timestamp := onesNumber shape.timestamp
      mixHash := some ⟨1 :: List.replicate 31 1, rfl⟩
      coinbase := some (repeated 1)
      parentBeaconBlockRoot := some ⟨1 :: List.replicate 31 1, rfl⟩ }
  withdrawals := some (shape.withdrawals.map onesWithdrawal)

theorem withdrawalShape_onesWithdrawal (shape : WithdrawalShape) :
    withdrawalShape (onesWithdrawal shape) = shape := by
  simp [withdrawalShape, onesWithdrawal]

theorem shape_onesRequest (shape : Shape) : (onesRequest m shape).shape = shape := by
  have hwithdrawals : (shape.withdrawals.map onesWithdrawal).map withdrawalShape =
      shape.withdrawals := by
    rw [List.map_map]
    exact (List.map_congr_left fun s _ => withdrawalShape_onesWithdrawal s).trans (List.map_id' _)
  simp [StartRequest.shape, onesRequest, hwithdrawals]

theorem withdrawalBuf_onesWithdrawal (shape : WithdrawalShape) :
    withdrawalBuf (onesWithdrawal shape) = List.replicate shape.size 1 := by
  have haddress : (onesWithdrawal shape).address.1 = List.replicate 20 1 := rfl
  have hindex : (onesWithdrawal shape).index = onesNumber shape.index := rfl
  have hvalidator : (onesWithdrawal shape).validatorIndex = onesNumber shape.validatorIndex := rfl
  have hamount : (onesWithdrawal shape).amount = onesNumber shape.amount := rfl
  rw [withdrawalBuf, haddress, hindex, hvalidator, hamount]
  simp only [bigEndian_onesNumber, ← List.replicate_add, WithdrawalShape.size]

theorem withdrawalsBuf_ones (shapes : List WithdrawalShape) :
    (shapes.map onesWithdrawal).flatMap withdrawalBuf =
      List.replicate (shapes.map WithdrawalShape.size).sum 1 := by
  induction shapes with
  | nil => rfl
  | cons shape shapes ih =>
    rw [List.map_cons, List.flatMap_cons, ih, withdrawalBuf_onesWithdrawal, List.map_cons,
      List.sum_cons, List.replicate_add]

theorem pendingGasLimit_onesParent :
    Miner.pendingGasLimit m (onesParent m) = onesNumber 4 := by
  refine if_neg ?_
  by_cases hlondon : m.hardforkBlock .london = some 1 <;> simp [onesParent, coreDefaults, hlondon]

theorem payload_onesRequest (shape : Shape) : (onesRequest m shape).payload keccak256 m =
    ((onesParent m).computeHash keccak256 m).1 ++ List.replicate (88 + shape.size) 1 := by
  have hwithdrawals := withdrawalsBuf_ones shape.withdrawals
  have hparent : (onesRequest m shape).parentBlock = onesParent m := rfl
  have hmix : (onesRequest m shape).mixHashBuf = List.replicate 32 1 := rfl
  have hroot : (onesRequest m shape).parentBeaconBlockRootBuf = List.replicate 32 1 := rfl
  have hcoinbase : (onesRequest m shape).coinbaseBuf = List.replicate 20 1 := rfl
  have htimestamp : bigEndian (onesRequest m shape).headerData.timestamp =
      List.replicate shape.timestamp 1 := bigEndian_onesNumber _
  have hbufs : ((onesRequest m shape).withdrawals.getD []).flatMap withdrawalBuf =
      List.replicate (shape.withdrawals.map WithdrawalShape.size).sum 1 := hwithdrawals
  rw [StartRequest.payload, hparent, hmix, hroot, hcoinbase, htimestamp, hbufs,
    pendingGasLimit_onesParent, bigEndian_onesNumber]
  simp only [List.append_assoc, ← List.replicate_add, Shape.size]
  congr 2
  omega

theorem SameAttributes.shape_eq (h : SameAttributes request request') :
    request.shape = request'.shape := by
  rw [StartRequest.shape, StartRequest.shape, h.timestamp, h.withdrawals]

/-- **Of two shapes, the requests are told apart exactly when the shapes are one, or are not of one
size.** -/
theorem toldApart_iff (keccak256 : Bytes → Bytes32) (m : HardforkManager) (shape shape' : Shape) :
    (∀ request request' : StartRequest, request.shape = shape → request'.shape = shape' →
      ToldApart keccak256 m request request') ↔ shape = shape' ∨ shape.size ≠ shape'.size := by
  constructor
  · intro h
    by_contra hcontra
    rw [not_or, not_not] at hcontra
    obtain ⟨hne, hsize⟩ := hcontra
    have hpayload : (onesRequest m shape).payload keccak256 m =
        (onesRequest m shape').payload keccak256 m := by
      rw [payload_onesRequest, payload_onesRequest, hsize]
    have hsame := h (onesRequest m shape) (onesRequest m shape') (shape_onesRequest shape)
      (shape_onesRequest shape')
      (by rw [hpayload, Set.pair_eq_singleton]; exact Set.injOn_singleton _ _)
      (by
        rw [show (onesRequest m shape).parentBlock = (onesRequest m shape').parentBlock from rfl,
          Set.pair_eq_singleton]
        exact Set.injOn_singleton _ _)
      (by rw [hpayload])
    exact hne ((shape_onesRequest shape).symm.trans (hsame.shape_eq.trans (shape_onesRequest shape')))
  · rintro h request request' rfl rfl hpayloads hparents heq
    have hpayload := hpayloads (.inl rfl) (.inr rfl) heq
    have hparent := parentBlock_eq hparents hpayload
    rcases h with hshape | hsize
    · exact sameAttributes_of_shape hparent hshape hpayload
    · -- payloads of two sizes are not equal
      have hlength := congrArg List.length hpayload
      rw [length_payload, length_payload, hparent] at hlength
      omega

/-- A request with one withdrawal. -/
def sampleWithdrawalRequest (index validatorIndex : ℕ) : StartRequest :=
  (sampleRequested []).startRequest sampleHead |> fun request =>
    { request with withdrawals := some [⟨index, validatorIndex, repeated 7, 1⟩] }

theorem payload_sampleWithdrawalRequest :
    (sampleWithdrawalRequest 1 0x0203).payload sampleDigest sampleManager =
      (sampleWithdrawalRequest 0x0102 3).payload sampleDigest sampleManager := by
  decide +kernel

/-- **Two withdrawals with one identifier**: of index 1 and validator 0x0203, and of index 0x0102
and validator 3. The builder of the first is returned for the second. -/
theorem not_toldApart_sampleWithdrawalRequest :
    ¬ ToldApart sampleDigest sampleManager (sampleWithdrawalRequest 1 0x0203)
      (sampleWithdrawalRequest 0x0102 3) ∧
    ((PendingBlock.start sampleDigest sampleManager sampleStartEnvironment
      (sampleWithdrawalRequest 0x0102 3)
      (PendingBlock.start sampleDigest sampleManager sampleStartEnvironment
        (sampleWithdrawalRequest 1 0x0203) JsMap.empty).2).2.get
        ((sampleWithdrawalRequest 0x0102 3).payloadId sampleDigest sampleManager)).map
      (fun cached => cached.builder.withdrawals) =
      some (some [⟨1, 0x0203, repeated 7, 1⟩]) := by
  refine ⟨fun h => ?_, by decide +kernel⟩
  have hsame := h
    (by rw [payload_sampleWithdrawalRequest, Set.pair_eq_singleton]; exact Set.injOn_singleton _ _)
    (by
      rw [show (sampleWithdrawalRequest 1 0x0203).parentBlock =
          (sampleWithdrawalRequest 0x0102 3).parentBlock from rfl, Set.pair_eq_singleton]
      exact Set.injOn_singleton _ _)
    (by rw [payload_sampleWithdrawalRequest])
  exact absurd hsame.withdrawals (by decide)

end Engine

end TsEthereum
