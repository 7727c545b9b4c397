import TsEthereum.Block.Fees

/-!
# Headers against their parents

`validateHeader` of the `blockchain` package: the number and the time, the difficulty by the
consensus, the gas limit, the base fee, the excess blob gas and the requests hash. The excess is
looked for with the hardfork of the number after the header's own.
-/

namespace TsEthereum

namespace Block

open TsEthereum.ChainConfig

/-- What is thrown. -/
inductive ValidationError where
  /-- What a header throws. -/
  | header (error : HeaderError)
  /-- What the database throws. -/
  | notFound
  /-- 'invalid number 2' -/
  | number (number : ℕ)
  /-- 'invalid timestamp 2' -/
  | timestamp (number : ℕ)
  /-- 'invalid difficulty.  PoS blocks must have difficulty 0' and what the others say. -/
  | difficulty
  /-- 'uncle block has a parent that is too old or too young 2' -/
  | uncle (number : ℕ)
  /-- 'Invalid block: base fee not correct 2' -/
  | baseFee (number : ℕ)
  /-- 'expected blob gas: 0, got: 1' -/
  | blobGas (expected : ℕ) (got : Option ℕ)
  /-- 'requestsHash must be provided when EIP-7685 is active' -/
  | requestsHash
  deriving DecidableEq

/-- What a header throws, thrown by the validation. -/
def ofHeader {α : Type} : Except HeaderError α → Except ValidationError α
  | .ok a => .ok a
  | .error e => .error (.header e)

/-- A `Consensus`. What a clique consensus says of a difficulty of one or two depends on its
signers. -/
inductive Consensus where
  | casper
  | ethash
  | clique (signers : ValidatedHeader → Except ValidationError Unit)

structure HeaderValidationContext where
  consensus : Option Consensus
  getParentHeader : Bytes → Except ValidationError ValidatedHeader

/-- What the difficulty of a child is calculated from. -/
def ValidatedHeader.parentData (data : ValidatedHeader) : ParentHeaderData :=
  ⟨data.timestamp, data.difficulty, data.uncleHash⟩

def Consensus.validateDifficulty (consensus : Consensus) (m : HardforkManager)
    (header parentHeader : ValidatedHeader) : Except ValidationError Unit :=
  match consensus with
  | .casper => if header.difficulty ≠ 0 then .error .difficulty else .ok ()
  | .ethash =>
    match ethashCanonicalDifficulty m header (some parentHeader.parentData) with
    | .error e => .error (.header e)
    | .ok difficulty => if difficulty ≠ header.difficulty then .error .difficulty else .ok ()
  | .clique signers =>
    if header.difficulty ≠ 2 ∧ header.difficulty ≠ 1 then .error .difficulty else signers header

/-- The difficulty is left to the consensus, unless the algorithm is called `pos`. -/
def checkDifficulty (m : HardforkManager) (ctx : HeaderValidationContext)
    (header parentHeader : ValidatedHeader) : Except ValidationError Unit :=
  match ctx.consensus with
  | none => .ok ()
  | some consensus =>
    if m.consensusAlgorithm = .other "pos" then .ok ()
    else consensus.validateDifficulty m header parentHeader

/-- An uncle's parent is not too old and not too young. -/
def checkUncle (header parentHeader : ValidatedHeader) (height : Option ℕ) :
    Except ValidationError Unit :=
  match height with
  | none => .ok ()
  | some height =>
    if parentHeader.number + 1 < height ∧ height < parentHeader.number + 8 then .ok ()
    else .error (.uncle header.number)

/-- `number === londonHfBlock`. -/
def isInitialEIP1559Block (m : HardforkManager) (number : ℕ) : Bool :=
  m.hardforkBlock .london = some number

/-- `expectedBaseFee`: the initial one, or what the parent says. -/
def expectedBaseFee (m : HardforkManager) (number : ℕ) (parentHeader : ValidatedHeader)
    (blockHardfork : Hardfork) : Except HeaderError ℕ :=
  if isInitialEIP1559Block m number then
    .ok ((m.getParamAtHardfork .initialBaseFee blockHardfork).getD 0)
  else parentHeader.calcNextBaseFee m

/-- EIP-1559: the base fee is the one that is expected. -/
def checkBaseFee (m : HardforkManager) (header parentHeader : ValidatedHeader)
    (blockHardfork : Hardfork) : Except ValidationError Unit :=
  if m.isEIPActiveAtHardfork 1559 blockHardfork then do
    let expected ← ofHeader (expectedBaseFee m header.number parentHeader blockHardfork)
    if header.baseFeePerGas = some expected then .ok () else .error (.baseFee header.number)
  else .ok ()

/-- EIP-4844: the excess blob gas is what the parent says, of the next number's hardfork. -/
def checkBlobGas (m : HardforkManager) (header parentHeader : ValidatedHeader)
    (blockHardfork : Hardfork) : Except ValidationError Unit :=
  if m.isEIPActiveAtHardfork 4844 blockHardfork then do
    let nextBlockHardfork := m.getHardforkByBlock (some (header.number + 1)) (some header.timestamp)
    let expectedExcessBlobGas ← ofHeader (parentHeader.calcNextExcessBlobGas m nextBlockHardfork)
    if header.excessBlobGas = some expectedExcessBlobGas then .ok ()
    else .error (.blobGas expectedExcessBlobGas header.excessBlobGas)
  else .ok ()

/-- EIP-7685: the requests hash is there. -/
def checkRequestsHash (m : HardforkManager) (header : ValidatedHeader) (blockHardfork : Hardfork) :
    Except ValidationError Unit :=
  if m.isEIPActiveAtHardfork 7685 blockHardfork ∧ header.requestsHash = none then
    .error .requestsHash
  else .ok ()

/-- **`validateHeader`**. -/
def validateHeader (m : HardforkManager) (header : ValidatedHeader) (ctx : HeaderValidationContext)
    (height : Option ℕ) : Except ValidationError Unit :=
  if header.number = 0 then .ok ()
  else do
    let parentHeader ← ctx.getParentHeader header.parentHash.1
    if header.number ≠ parentHeader.number + 1 then .error (.number header.number) else .ok ()
    if header.timestamp ≤ parentHeader.timestamp then .error (.timestamp header.number) else .ok ()
    checkDifficulty m ctx header parentHeader
    ofHeader (header.validateGasLimit m parentHeader.gasLimit)
    checkUncle header parentHeader height
    let blockHardfork := m.getHardforkByBlock (some header.number) (some header.timestamp)
    checkBaseFee m header parentHeader blockHardfork
    checkBlobGas m header parentHeader blockHardfork
    checkRequestsHash m header blockHardfork

end Block

end TsEthereum
