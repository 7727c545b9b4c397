import TsEthereum.TxPool.Contiguous

/-!
# Transactions of a hash

How often a hash is pooled (`occurrences`) never grows by a removal, and what is found by its hash
is taken out by it (`Findable.removeByHash`).
-/

namespace TsEthereum

namespace TxPool

variable {s s' : TxPool} {pool pool' : PoolType} {address address' : Bytes20}
variable {objs : List TxPoolObject} {chain : ChainView} {tx : TxManager} {hash : Bytes32}

/-- How many transactions of a list have a hash. -/
def occurring (hash : Bytes32) (objs : List TxPoolObject) : ℕ := objs.countP fun obj => obj.hash = hash

/-- How many transactions of a sender have a hash. -/
def occurrences (s : TxPool) (hash : Bytes32) (address : Bytes20) : ℕ :=
  occurring hash (s.list .pending address) + occurring hash (s.list .queued address)

/-- **Nothing of a hash is pooled.** -/
def Lacks (s : TxPool) (hash : Bytes32) : Prop := ∀ address, s.occurrences hash address = 0

/-- **What has a hash is found by it**: it is pooled once, and handled under its sender. -/
def Findable (s : TxPool) (hash : Bytes32) : Prop :=
  ∀ address, 0 < s.occurrences hash address →
    (∃ handled, s.handled hash = some handled ∧ handled.address = address) ∧
      s.occurrences hash address = 1

theorem occurring_eq_zero : occurring hash objs = 0 ↔ ∀ obj ∈ objs, obj.hash ≠ hash := by
  rw [occurring, List.countP_eq_zero]
  simp

theorem occurring_le_of_sublist {objs' : List TxPoolObject} (h : objs'.Sublist objs) :
    occurring hash objs' ≤ occurring hash objs := h.countP_le

theorem occurrences_pos {obj : TxPoolObject} (h : obj ∈ s.list pool address) :
    0 < s.occurrences obj.hash address := by
  have hpos : 0 < occurring obj.hash (s.list pool address) :=
    List.countP_pos_iff.2 ⟨obj, h, decide_eq_true rfl⟩
  rw [occurrences]
  cases pool with
  | pending => omega
  | queued => omega

theorem Lacks.hash_ne (h : s.Lacks hash) {obj : TxPoolObject} (hobj : obj ∈ s.list pool address) :
    obj.hash ≠ hash := by
  rintro rfl
  have := occurrences_pos hobj
  have := h address
  omega

/-- What is findable stays so while it is no more often pooled and handled as it was. -/
theorem Findable.of_le (h : s.Findable hash)
    (hle : ∀ address, s'.occurrences hash address ≤ s.occurrences hash address)
    (hhandled : s'.handled hash = s.handled hash) : s'.Findable hash := by
  intro address hpos
  have hle := hle address
  obtain ⟨hfound, hone⟩ := h address (by omega)
  rw [hhandled]
  exact ⟨hfound, by omega⟩

/-! ## Removals -/

theorem occurrences_removeByHash_le (s : TxPool) (hash hash' : Bytes32) (address : Bytes20) :
    (s.removeByHash hash').occurrences hash address ≤ s.occurrences hash address := by
  have hsub : ∀ pool, ((s.removeByHash hash').list pool address).Sublist (s.list pool address) := by
    intro pool
    rcases list_removeByHash s hash' pool address with heq | heq
    · rw [heq]
    · rw [heq]
      exact List.filter_sublist
  exact Nat.add_le_add (occurring_le_of_sublist (hsub _)) (occurring_le_of_sublist (hsub _))

theorem handled_removeByHash (s : TxPool) (hash : Bytes32) :
    (s.removeByHash hash).handled = s.handled := by
  rcases removeByHash_cases s hash with heq | ⟨_, _, _, -, -, -, -, heq⟩
  · rw [heq]
  · rw [heq]
    rfl

theorem Findable.removeByHash (h : s.Findable hash) : (s.removeByHash hash).Lacks hash := by
  rw [TxPool.removeByHash]
  cases hhandled : s.handled hash with
  | none =>
    intro address
    by_contra hne
    obtain ⟨⟨handled, hsome, -⟩, -⟩ := h address (Nat.pos_of_ne_zero hne)
    rw [hhandled] at hsome
    cases hsome
  | some handled =>
    -- with another sender there is none
    have hothers : ∀ address, address ≠ handled.address → s.occurrences hash address = 0 := by
      intro address hne
      by_contra hzero
      obtain ⟨⟨handled', hsome, haddress⟩, -⟩ := h address (Nat.pos_of_ne_zero hzero)
      rw [hhandled] at hsome
      cases hsome
      exact hne haddress.symm
    have hone : 0 < s.occurrences hash handled.address → s.occurrences hash handled.address = 1 :=
      fun hpos => (h handled.address hpos).2
    simp only
    by_cases hany : (s.list .pending handled.address).any (fun obj => obj.hash = hash) = true
    · obtain ⟨obj, hobj, hobjhash⟩ := List.any_eq_true.1 hany
      have hpending : 0 < occurring hash (s.list .pending handled.address) :=
        List.countP_pos_iff.2 ⟨obj, hobj, hobjhash⟩
      rw [if_pos hany]
      cases hfind : (s.list .pending handled.address).find? fun obj => obj.hash = hash with
      | none => exact absurd hobjhash (List.find?_eq_none.1 hfind obj hobj)
      | some txObj =>
        intro address
        change (s.replaceList .pending handled.address ((s.list .pending handled.address).filter
          fun obj => obj.hash ≠ hash)).occurrences hash address = 0
        by_cases haddress : address = handled.address
        · subst haddress
          rw [occurrences, list_replaceList, if_pos ⟨rfl, rfl⟩, list_replaceList,
            if_neg fun h => absurd h.1 (by decide)]
          have hone := hone (by rw [occurrences]; omega)
          have hnone : occurring hash ((s.list .pending handled.address).filter
              fun obj => obj.hash ≠ hash) = 0 :=
            occurring_eq_zero.2 fun obj hobj => of_decide_eq_true (List.mem_filter.1 hobj).2
          rw [occurrences] at hone
          omega
        · rw [occurrences, list_replaceList, if_neg (fun h => haddress h.2), list_replaceList,
            if_neg fun h => haddress h.2]
          exact hothers address haddress
    · have hpending : occurring hash (s.list .pending handled.address) = 0 := by
        refine occurring_eq_zero.2 fun obj hobj heq => hany ?_
        exact List.any_eq_true.2 ⟨obj, hobj, decide_eq_true heq⟩
      rw [if_neg hany]
      cases hfind : (s.list .queued handled.address).find? fun obj => obj.hash = hash with
      | none =>
        intro address
        by_cases haddress : address = handled.address
        · subst haddress
          have hqueued : occurring hash (s.list .queued handled.address) = 0 := by
            refine occurring_eq_zero.2 fun obj hobj heq => ?_
            exact List.find?_eq_none.1 hfind obj hobj (decide_eq_true heq)
          rw [occurrences, hpending, hqueued]
        · exact hothers address haddress
      | some txObj =>
        intro address
        change (s.replaceList .queued handled.address ((s.list .queued handled.address).filter
          fun obj => obj.hash ≠ hash)).occurrences hash address = 0
        by_cases haddress : address = handled.address
        · subst haddress
          rw [occurrences, list_replaceList, if_neg (fun h => absurd h.1 (by decide)),
            list_replaceList, if_pos ⟨rfl, rfl⟩, hpending, Nat.zero_add]
          exact occurring_eq_zero.2 fun obj hobj => of_decide_eq_true (List.mem_filter.1 hobj).2
        · rw [occurrences, list_replaceList, if_neg (fun h => haddress h.2), list_replaceList,
            if_neg fun h => haddress h.2]
          exact hothers address haddress

end TxPool

end TsEthereum
