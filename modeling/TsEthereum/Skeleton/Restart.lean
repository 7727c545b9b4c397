import TsEthereum.Skeleton.Subchains
import Mathlib.Tactic.IntervalCases

/-!
# Restarts

The status that is written is the one that is read, always (`statusRLPtoObject_statusToRLP`),
and blocks are read as they were. But what `deserialize` makes of a hardfork is its bytes
with commas between them, which is the hardfork only if that is empty
(`uint8ArrayToString_utf8ToBytes_iff`); and the numbers of the status that the safe and the
finalized block are read from are not those of these blocks.
-/

namespace TsEthereum.Skeleton

open TsEthereum Rlp
open TsEthereum.Blockchain (bigIntToBytes ofBigEndian_bigIntToBytes)

variable {β γ : Type} {cfg : Config β γ} {s : State β γ}

/-! ## The hardfork -/

theorem length_intercalate_comma {xs : List (List Char)} (h : ∀ x ∈ xs, 1 ≤ x.length) :
    2 * xs.length ≤ ([','].intercalate xs).length + 1 := by
  induction xs with
  | nil => simp
  | cons x xs ih =>
    have hx := h x List.mem_cons_self
    have hxs := ih fun y hy => h y (List.mem_cons_of_mem x hy)
    cases xs with
    | nil => simp [List.intercalate] at hx ⊢; omega
    | cons y ys =>
      rw [List.intercalate_cons_cons]
      simp only [List.length_append, List.length_cons, List.length_nil] at hx hxs ⊢
      omega

theorem length_le_utf8ToBytes (text : String) : text.toList.length ≤ (utf8ToBytes text).length := by
  unfold utf8ToBytes
  induction text.toList with
  | nil => simp
  | cons c cs ih =>
    have hc : 1 ≤ (String.utf8EncodeChar c).length := by
      rw [String.length_utf8EncodeChar]
      exact Char.utf8Size_pos c
    simp only [List.flatMap_cons, List.length_append, List.length_cons]
    omega

theorem toDigits_ne_of_utf8EncodeChar {c : Char} {b : UInt8} (hb : String.utf8EncodeChar c = [b]) :
    Nat.toDigits 10 b.toNat ≠ [c] := by
  intro hc
  have hlt : b.toNat < 10 ^ 1 :=
    (Nat.length_toDigits_le_iff (by decide) (by decide)).1 (by rw [hc]; exact le_refl 1)
  -- the character is a digit, of a code from 48 on
  rw [Nat.toDigits_of_lt_base (by omega), List.singleton_inj] at hc
  subst hc
  rw [← UInt8.ofNat_toNat (x := b)] at hb
  generalize b.toNat = n at hb hlt
  interval_cases n <;> revert hb <;> decide

theorem uint8ArrayToString_utf8ToBytes_iff (text : String) :
    uint8ArrayToString (utf8ToBytes text) = text ↔ text = "" := by
  constructor
  · intro h
    have hlist : [','].intercalate ((utf8ToBytes text).map fun x => Nat.toDigits 10 x.toNat) =
        text.toList := by
      conv_rhs => rw [← h]
      rw [uint8ArrayToString, String.toList_ofList]
    have hdigits : ∀ digits ∈ (utf8ToBytes text).map fun x => Nat.toDigits 10 x.toNat,
        1 ≤ digits.length := by
      intro digits hmem
      obtain ⟨x, -, rfl⟩ := List.mem_map.1 hmem
      exact Nat.length_toDigits_pos
    have hlength := length_intercalate_comma hdigits
    have hbytes := length_le_utf8ToBytes text
    rw [List.length_map, hlist] at hlength
    cases hchars : text.toList with
    | nil => exact String.toList_eq_nil_iff.1 hchars
    | cons c cs =>
      -- so there is one character, of one byte
      exfalso
      rw [hchars, List.length_cons] at hlength hbytes
      obtain rfl : cs = [] := List.length_eq_zero_iff.1 (by omega)
      have hone : utf8ToBytes text = String.utf8EncodeChar c := by
        rw [utf8ToBytes, hchars, List.flatMap_singleton]
      obtain ⟨b, hb⟩ := List.length_eq_one_iff.1 (show (utf8ToBytes text).length = 1 by omega)
      rw [hb, hchars] at hlist
      exact toDigits_ne_of_utf8EncodeChar (hone.symm.trans hb) (by simpa [List.intercalate] using hlist)
  · rintro rfl
    rfl

theorem deserialize_serialize {hardfork : String} {blockRLP : Bytes}
    (hfits : (serialize hardfork blockRLP).length < arrayBound) :
    deserialize (serialize hardfork blockRLP) =
      some (uint8ArrayToString (utf8ToBytes hardfork), blockRLP) := by
  have hlt : (serialize hardfork blockRLP).length < 256 ^ 8 := lt_trans hfits (by decide)
  unfold serialize at hlt
  simp only [deserialize, serialize, decode_encode hlt]

theorem deserialize_serialize_iff {hardfork : String} {blockRLP : Bytes}
    (hfits : (serialize hardfork blockRLP).length < arrayBound) :
    deserialize (serialize hardfork blockRLP) = some (hardfork, blockRLP) ↔ hardfork = "" := by
  rw [deserialize_serialize hfits, Option.some.injEq, Prod.mk.injEq]
  exact ⟨fun h => (uint8ArrayToString_utf8ToBytes_iff hardfork).1 h.1,
    fun h => ⟨(uint8ArrayToString_utf8ToBytes_iff hardfork).2 h, rfl⟩⟩

/-! ## The status -/

theorem Subchain.ofRLP_toRLP (subchain : Subchain) : Subchain.ofRLP subchain.toRLP = some subchain := by
  simp only [Subchain.toRLP, Subchain.ofRLP, ofBigEndian_bigIntToBytes]

theorem decide_flagToBytes (flag : Bool) : decide (ofBigEndian (flagToBytes flag) = 1) = flag := by
  rw [flagToBytes, ofBigEndian_bigIntToBytes]
  cases flag <;> rfl

theorem statusRLPtoObject_statusToRLP {status : Status}
    (hfits : (statusToRLP status).length < arrayBound) :
    statusRLPtoObject (statusToRLP status) = some status := by
  have hlt : (statusToRLP status).length < 256 ^ 8 := lt_trans hfits (by decide)
  unfold statusToRLP at hlt
  have hsubchains : (status.subchains.map Subchain.toRLP).mapM Subchain.ofRLP =
      some status.subchains := by
    induction status.subchains with
    | nil => rfl
    | cons subchain subchains ih =>
      rw [List.map_cons, List.mapM_cons, Subchain.ofRLP_toRLP, ih]
      rfl
  unfold statusRLPtoObject statusToRLP
  rw [decode_encode hlt]
  simp only [Status.toValue, hsubchains, decide_flagToBytes, ofBigEndian_bigIntToBytes,
    Option.map_some]

/-! ## Reopening -/

theorem getBlock_congr {s' : State β γ} {number : ℕ}
    (hdb : s'.db (.skeletonBlock (bigIntToBytes number)) =
      s.db (.skeletonBlock (bigIntToBytes number)))
    (hlinked : s'.status.linked = s.status.linked) (hchain : s'.chain = s.chain)
    (onlyCanonical : Bool) : getBlock cfg s' number onlyCanonical = getBlock cfg s number onlyCanonical := by
  simp only [getBlock, hdb, hlinked, hchain]

/-- The record of a block. -/
def record (cfg : Config β γ) (block : β) : Bytes :=
  serialize (cfg.hardfork block) (cfg.serialize block)

/-- **What is taken of the block package**: a block is made again of its RLP. Records fit an
array. -/
structure Config.Reads (cfg : Config β γ) : Prop where
  createBlockFromRLP : ∀ block, cfg.createBlockFromRLP (cfg.serialize block) = some block
  fits : ∀ block, (record cfg block).length < arrayBound

theorem skeletonBlockRlpToBlock_record (hcfg : cfg.Reads) (block : β) :
    skeletonBlockRlpToBlock cfg (record cfg block) = some block := by
  rw [skeletonBlockRlpToBlock, record, deserialize_serialize (hcfg.fits block), Option.bind_some,
    hcfg.createBlockFromRLP]

theorem getBlock_of_record (hcfg : cfg.Reads) {number : ℕ} {block : β}
    (h : s.db (.skeletonBlock (bigIntToBytes number)) = some (record cfg block))
    (onlyCanonical : Bool) : getBlock cfg s number onlyCanonical = some block := by
  simp only [getBlock, h, Option.bind_some, skeletonBlockRlpToBlock_record hcfg]

/-- **The block is stored**, under its hash or its number. -/
def Stored (cfg : Config β γ) (s : State β γ) (block : β) : Prop :=
  s.db (.skeletonUnfinalizedBlockByHash (cfg.hash block)) = some (record cfg block) ∨
    s.db (.skeletonBlock (bigIntToBytes (cfg.number block))) = some (record cfg block)

/-- **The skeleton reopened**: it has the status of the one that was closed, and its safe and
finalized block, reads the same blocks, and the ones that are stored as they were; and the records
are read as they were written. -/
structure RestartEquivalent (cfg : Config β γ) (s : State β γ) : Prop where
  reopened : ∃ s', «open» cfg (close s).db s.chain = some s' ∧ s'.status = s.status ∧
    s'.safeBlock = s.safeBlock ∧ s'.finalizedBlock = s.finalizedBlock ∧
    ∀ number onlyCanonical,
      getBlock cfg s' number onlyCanonical = getBlock cfg s number onlyCanonical ∧
        ∀ block, s.db (.skeletonBlock (bigIntToBytes number)) = some (record cfg block) →
          getBlock cfg s' number onlyCanonical = some block
  records : ∀ block, Stored cfg s block →
    deserialize (record cfg block) = some (cfg.hardfork block, cfg.serialize block)

/-- What is opened after it is closed. -/
def reopened (cfg : Config β γ) (s : State β γ) : State β γ :=
  { (State.create (close s).db s.chain : State β γ) with
    status := s.status
    started := true
    safeBlock := getBlock cfg s s.status.safe true
    finalizedBlock := getBlock cfg s s.status.finalized true }

theorem getBlock_reopened (number : ℕ) (onlyCanonical : Bool) :
    getBlock cfg (reopened cfg s) number onlyCanonical = getBlock cfg s number onlyCanonical := by
  refine getBlock_congr ?_ rfl rfl onlyCanonical
  simp [reopened, State.create, close, writeSyncStatus, State.put]

theorem open_close (hfits : (statusToRLP s.status).length < arrayBound) :
    «open» cfg (close s).db s.chain = some (reopened cfg s) := by
  have hstatus : (close s).db .skeletonStatus = some (statusToRLP s.status) := by
    simp [close, writeSyncStatus, State.put]
  have hblock : ∀ number, getBlock cfg
      { (State.create (close s).db s.chain : State β γ) with status := s.status }
      number true = getBlock cfg s number true := by
    intro number
    refine getBlock_congr ?_ rfl rfl true
    simp [State.create, close, writeSyncStatus, State.put]
  simp only [«open», getSyncStatus, State.create, hstatus, statusRLPtoObject_statusToRLP hfits,
    Option.map_some] at hblock ⊢
  rw [hblock, hblock]
  rfl

theorem sampleConfig_reads : sampleConfig.Reads where
  createBlockFromRLP _ := rfl
  fits block := by
    have hutf8 : utf8ToBytes "cancun" = [99, 97, 110, 99, 117, 110] := by decide
    simp [record, serialize, sampleConfig, hutf8, encode, encodeAll, encodeBytes, encodeLength,
      arrayBound]

end TsEthereum.Skeleton
