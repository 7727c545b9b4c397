import TsEthereum.Blockchain.Canonical

/-!
# The iterator heads over a reorg

What a put that becomes canonical does to a pointer depends on where that
is: what is no higher than the common ancestor stays, what is replaced goes
back to the ancestor, and what is above the new head goes to the new head
(`movePointer_of_le`, `movePointer_of_replaced`, `movePointer_of_above`). The
last is no step back, unless the new head was canonical before; so
`heads_back_iff` says when every head goes back to a block its iterator has
passed.
-/

namespace TsEthereum.Blockchain

open TsEthereum

variable {cfg : Config} {H : Set BlockHeader} {c c' : Chain} {chain path : List BlockHeader}
variable {A x y : BlockHeader}

/-- **A canonical block**: its header is stored under the hash, and the index
has the hash at its number. -/
def Database.Canonical (db : Database) (hash : Bytes) (x : BlockHeader) : Prop :=
  db.header x.number hash = some x ∧ db.numberToHash x.number = some hash

/-- Every iterator head is canonical. -/
def HeadsCanonical (c : Chain) : Prop :=
  ∀ name hash, c.state.heads name = some hash → ∃ x, c.db.Canonical hash x

/-- **Every head has gone back or stayed**: it is canonical, and it is the
head there was before or an ancestor of that. -/
def HeadsBack (c c' : Chain) : Prop :=
  ∀ name hash', c'.state.heads name = some hash' → ∃ x', c'.db.Canonical hash' x' ∧
    ∃ hash x, c.state.heads name = some hash ∧ c.db.header x.number hash = some x ∧
      Relation.ReflTransGen c.db.Parent x x'

/-! ## Where a pointer goes -/

theorem Kept.canonical_iff (h : Kept cfg H c chain) (hH : cfg.Admits H) {hash : Bytes} :
    c.db.Canonical hash x ↔ x ∈ chain ∧ hash = cfg.hash x := by
  constructor
  · rintro ⟨hheader, hhash⟩
    obtain ⟨hx, rfl, -⟩ := h.indexed.header _ _ x hheader
    exact ⟨List.mem_of_getElem? ((h.indexed.numberToHash_eq_iff hH hx).1 hhash), rfl⟩
  · rintro ⟨hx, rfl⟩
    have hxH := h.indexed.mem hx
    refine ⟨?_, (h.indexed.numberToHash_eq_iff hH hxH).2 (h.indexed.branch.getElem?_number hx)⟩
    rw [Indexed.header_eq hH hxH]
    exact h.indexed.stored x hx

section

variable (h : Indexed cfg H c.db chain) (hH : cfg.Admits H)
include h hH

theorem hash_mem_map_iff {blocks : List BlockHeader} (hblocks : ∀ z ∈ blocks, z ∈ chain)
    (hx : x ∈ H) : cfg.hash x ∈ blocks.map cfg.hash ↔ x ∈ blocks := by
  constructor
  · intro hmem
    obtain ⟨z, hz, hhash⟩ := List.mem_map.1 hmem
    rwa [← hH.injOn (h.mem (hblocks z hz)) hx hhash]
  · exact List.mem_map_of_mem

theorem movePointer_self (hx : x ∈ H)
    (hj : Fork.Joins BlockHeader.number c.db.Parent chain x path A) :
    movePointer cfg chain x A (cfg.hash x) = cfg.hash x := by
  have hreplaced : x ∉ replaced chain A x := by
    intro hmem
    obtain ⟨hchain, hlt, -⟩ := (mem_replaced_iff h.branch).1 hmem
    rcases hj.eq_or_mem with ⟨-, rfl⟩ | hpath
    · omega
    · exact hj.notMem_chain hpath (h.branch.getElem?_number hchain)
  have hinner : moveFrom ((chain.drop (x.number + 1)).map cfg.hash) (cfg.hash x) (cfg.hash x) =
      cfg.hash x := ite_id _
  rw [movePointer, hinner, moveFrom, if_neg]
  rwa [hash_mem_map_iff h hH (fun z hz => ((mem_replaced_iff h.branch).1 hz).1) hx]

theorem movePointer_of_above (hx : x ∈ H)
    (hj : Fork.Joins BlockHeader.number c.db.Parent chain x path A) (hy : y ∈ chain)
    (hlt : x.number < y.number) : movePointer cfg chain x A (cfg.hash y) = cfg.hash x := by
  have hinner : moveFrom ((chain.drop (x.number + 1)).map cfg.hash) (cfg.hash x) (cfg.hash y) =
      moveFrom ((chain.drop (x.number + 1)).map cfg.hash) (cfg.hash x) (cfg.hash x) := by
    have hmem : cfg.hash y ∈ (chain.drop (x.number + 1)).map cfg.hash :=
      List.mem_map_of_mem (h.branch.mem_drop_iff.2 ⟨hy, hlt⟩)
    rw [moveFrom, if_pos hmem, moveFrom, ite_id]
  have hself := movePointer_self h hH hx hj
  rw [movePointer] at hself ⊢
  rw [hinner, hself]

theorem movePointer_of_not_above (hy : y ∈ chain) (hle : y.number ≤ x.number) :
    movePointer cfg chain x A (cfg.hash y) =
      if y ∈ replaced chain A x then cfg.hash A else cfg.hash y := by
  have hyH := h.mem hy
  have hnot : cfg.hash y ∉ (chain.drop (x.number + 1)).map cfg.hash := by
    rw [hash_mem_map_iff h hH (fun z hz => (h.branch.mem_drop_iff.1 hz).1) hyH, h.branch.mem_drop_iff]
    omega
  rw [movePointer, moveFrom, moveFrom, if_neg hnot]
  exact if_congr
    (hash_mem_map_iff h hH (fun z hz => ((mem_replaced_iff h.branch).1 hz).1) hyH) rfl rfl

theorem movePointer_of_replaced (hy : y ∈ chain) (hA : A.number < y.number)
    (hle : y.number ≤ x.number) : movePointer cfg chain x A (cfg.hash y) = cfg.hash A := by
  rw [movePointer_of_not_above h hH hy hle,
    if_pos ((mem_replaced_iff h.branch).2 ⟨hy, hA, hle⟩)]

theorem movePointer_of_le (hy : y ∈ chain)
    (hj : Fork.Joins BlockHeader.number c.db.Parent chain x path A) (hA : y.number ≤ A.number) :
    movePointer cfg chain x A (cfg.hash y) = cfg.hash y := by
  have hnumber := hj.number_eq
  rw [movePointer_of_not_above h hH hy (by omega), if_neg]
  rw [mem_replaced_iff h.branch]
  omega

end

/-! ## The heads after a put -/

theorem Indexed.ancestor_mem (h : Indexed cfg H c.db chain) (hH : cfg.Admits H) (hx : x ∈ H)
    (hxy : Relation.ReflTransGen c.db.Parent x y) : y ∈ H := by
  induction hxy with
  | refl => exact hx
  | tail _ hyz ih => exact (h.parent hH ih hyz).1

theorem Kept.ancestor (h : Kept cfg H c chain) (hx : x ∈ chain)
    (hxy : Relation.ReflTransGen c.db.Parent x y) : y ∈ chain := by
  refine (h.indexed.branch.ancestor ?_ ?_ hx hxy).1
  · intro x y z hy hz
    exact Option.some.inj (hy.2.symm.trans hz.2)
  · intro x y hx hxy
    rw [h.indexed.genesis] at hx
    rw [← Option.some.inj hx] at hxy
    exact hxy.1 cfg.genesis_number

/-- **The heads go back at a switch exactly when none is above the new head**,
or that was canonical before. -/
theorem headsBack_iff_of_switch (h : Kept cfg H c chain) (hH : cfg.Admits H) (hx : x ∈ H)
    (hj : Fork.Joins BlockHeader.number c.db.Parent chain x path A)
    (hheads : HeadsCanonical c)
    (h' : Kept cfg H c' (Fork.switch BlockHeader.number chain path A))
    (hmoved : ∀ name, c'.state.heads name =
      (c.state.heads name).map (movePointer cfg chain x A)) :
    HeadsBack c c' ↔ ∀ name hash n, c.state.heads name = some hash →
      c.db.hashToNumber hash = some n → x.number < n →
      c.db.numberToHash x.number = some (cfg.hash x) := by
  have hAmem := List.mem_of_getElem? hj.ancestor_mem
  have hnumber {z : BlockHeader} (hz : z ∈ chain) : c.db.hashToNumber (cfg.hash z) = some z.number :=
    h.indexed.number z (h.indexed.stored z hz)
  constructor
  · intro hback name hash n hhead hn hlt
    obtain ⟨y, hy⟩ := hheads name hash hhead
    obtain ⟨hychain, rfl⟩ := (h.canonical_iff hH).1 hy
    rw [hnumber hychain] at hn
    rw [← Option.some.inj hn] at hlt
    obtain ⟨x', hx', hash, z, hz, hzstored, hzx⟩ := hback name (cfg.hash x) (by
      rw [hmoved, hhead, Option.map_some, movePointer_of_above h.indexed hH hx hj hychain hlt])
    -- the new head is an ancestor of a canonical block, so it is one
    obtain ⟨hx'chain, hhash⟩ := (h'.canonical_iff hH).1 hx'
    rw [← hH.injOn hx (h'.indexed.mem hx'chain) hhash] at hzx
    rw [hhead] at hz
    obtain rfl := Option.some.inj hz
    obtain ⟨hzH, hzhash, -⟩ := h.indexed.header _ _ z hzstored
    rw [hH.injOn hzH (h.indexed.mem hychain) hzhash] at hzx
    exact (h.indexed.numberToHash_eq_iff hH hx).2
      (h.indexed.branch.getElem?_number (h.ancestor hychain hzx))
  · intro habove name hash' hhead'
    rw [hmoved] at hhead'
    obtain ⟨hash, hhead, rfl⟩ := Option.map_eq_some_iff.1 hhead'
    obtain ⟨y, hy⟩ := hheads name hash hhead
    obtain ⟨hychain, rfl⟩ := (h.canonical_iff hH).1 hy
    have hback {z : BlockHeader} (hz : z ∈ chain)
        (hz' : z ∈ Fork.switch BlockHeader.number chain path A) (hle : z.number ≤ y.number)
        (hmove : movePointer cfg chain x A (cfg.hash y) = cfg.hash z) :
        ∃ x', c'.db.Canonical (movePointer cfg chain x A (cfg.hash y)) x' ∧
          ∃ hash x'', c.state.heads name = some hash ∧ c.db.header x''.number hash = some x'' ∧
            Relation.ReflTransGen c.db.Parent x'' x' :=
      ⟨z, (h'.canonical_iff hH).2 ⟨hz', hmove⟩, _, y, hhead, hy.1,
        h.indexed.branch.ancestor_of_le hychain hz hle⟩
    have hkeep {z : BlockHeader} (hz : z ∈ chain) (hle : z.number ≤ A.number) :
        z ∈ Fork.switch BlockHeader.number chain path A := by
      refine List.mem_of_getElem? (i := z.number) ?_
      rw [hj.getElem?_switch_of_le hle]
      exact h.indexed.branch.getElem?_number hz
    rcases Nat.lt_or_ge x.number y.number with hlt | hge
    · have hxchain := List.mem_of_getElem? ((h.indexed.numberToHash_eq_iff hH hx).1
        (habove name _ _ hhead (hnumber hychain) hlt))
      exact hback hxchain (List.mem_of_getElem? hj.getElem?_switch_self) (by omega)
        (movePointer_of_above h.indexed hH hx hj hychain hlt)
    · rcases Nat.lt_or_ge A.number y.number with hA | hA
      · exact hback hAmem (hkeep hAmem (le_refl _)) (by omega)
          (movePointer_of_replaced h.indexed hH hychain hA hge)
      · exact hback hychain (hkeep hychain hA) (le_refl _)
          (movePointer_of_le h.indexed hH hychain hj hA)

/-- **Iterator heads over a reorg**: after a put that changes the index, every
head is canonical and where it was or at an ancestor of that, exactly when
none was above what is put, or what is put was canonical before. -/
theorem heads_back_iff (calls : List Call) (call : Call) (item : Item)
    (hquiet : ∀ call ∈ calls, Quiet call.hooks) (hcalls : Admissible cfg (calls ++ [call]))
    (hreached : calls.foldl (Chain.after cfg) (Chain.init cfg) = c) (hheads : HeadsCanonical c)
    (hop : call.op = .put item) (hcall : c.call cfg call = .ok c')
    (hchanged : ∃ n : ℕ, n < 2 ^ 64 ∧ c'.db.numberToHash n ≠ c.db.numberToHash n) :
    HeadsBack c c' ↔
      ∀ name hash n, c.state.heads name = some hash → c.db.hashToNumber hash = some n →
        item.header.number < n →
        c.db.numberToHash item.header.number = some (cfg.hash item.header) := by
  have hH := hcalls.admits
  have hx : item.header ∈ {x | x ∈ headersPut cfg (calls ++ [call])} :=
    mem_headersPut (List.mem_append_right _ (List.mem_singleton_self call)) hop
  obtain ⟨chain, h⟩ := (Kept.init List.mem_cons_self).foldl hH
    (fun call' hmem _ hop' => mem_headersPut (List.mem_append_left _ hmem) hop') hquiet
  rw [hreached] at h
  obtain ⟨n, hn, hchanged⟩ := hchanged
  obtain ⟨op, hooks, trackDeleted⟩ := call
  obtain rfl : op = .put item := hop
  obtain ⟨state, hout, hstate⟩ := putBlockOrHeader_ok (Chain.call_eq_ok_iff.1 hcall)
  obtain ⟨state', db⟩ := c'
  dsimp only at hout hstate hchanged
  cases hout with
  | genesis _ _ => exact absurd rfl hchanged
  | canonical hne hreads hshould hc =>
    obtain ⟨path, hj, hops, hmoved, hhead, -⟩ := h.canonicalises hH hx hc
    rw [List.append_assoc (itemOps cfg item _), hops]
    refine headsBack_iff_of_switch h hH hx (hj.mono fun _ _ hread => hread.1) hheads
      (h.switch hH hx hj _ _ (by rw [hstate]; exact hhead)) fun name => ?_
    rw [hstate]
    exact congrFun hmoved name
  | beside hne hreads hshould =>
    exact absurd (((h.indexed.beside hH hx).index n hn).trans (h.indexed.index n hn).symm) hchanged

/-! ## A head above the new head -/

/-- A chain of two blocks over the genesis, with an iterator head on it. -/
def iterated (headHash : Bytes) : List Call :=
  twoPuts ++ [⟨.setIteratorHead "vm" headHash, fun _ => .ok (), false⟩]

/-- The chain there is then. -/
def iteratedChain (headHash : Bytes) : Chain :=
  (iterated headHash).foldl (Chain.after sampleConfig) (Chain.init sampleConfig)

theorem iteratedChain_heads (headHash : Bytes) :
    (iteratedChain headHash).state.heads = Function.update (fun _ => none) "vm" (some headHash) :=
  rfl

theorem quiet_iterated (headHash : Bytes) : ∀ call ∈ iterated headHash, Quiet call.hooks := by
  intro call hcall
  simp only [iterated, twoPuts, List.mem_append, List.mem_cons, List.not_mem_nil, or_false] at hcall
  rcases hcall with (rfl | rfl) | rfl <;> exact ⟨fun _ _ _ => rfl, fun _ => rfl⟩

theorem headsCanonical_iterated {headHash : Bytes} {x : BlockHeader}
    (hx : (iteratedChain headHash).db.Canonical headHash x) :
    HeadsCanonical (iteratedChain headHash) := by
  intro name hash hhead
  rw [iteratedChain_heads] at hhead
  by_cases hname : name = "vm"
  · subst hname
    rw [Function.update_self] at hhead
    rw [← Option.some.inj hhead]
    exact ⟨x, hx⟩
  · rw [Function.update_of_ne hname] at hhead
    cases hhead

/-- A block of a higher total difficulty than the chain's. -/
def heavier (number : ℕ) (parentHash : Bytes) : BlockHeader := sampleHeader [3] parentHash number 10

/-- With the head on block 1, a heavier block 2 leaves it. -/
theorem heads_back_iff_heavier : ∃ c',
    (iteratedChain [1]).call sampleConfig (samplePut (heavier 2 [1])) = .ok c' ∧
      HeadsBack (iteratedChain [1]) c' := by
  obtain ⟨c', hc'⟩ := exists_ok_of_isOk
    (show ((iteratedChain [1]).call sampleConfig (samplePut (heavier 2 [1]))).isOk = true by
      decide +kernel)
  have hnew : ((iteratedChain [1]).call sampleConfig (samplePut (heavier 2 [1]))).map
      (fun c => c.db.numberToHash 2) = .ok (some [3]) := by decide +kernel
  rw [hc'] at hnew
  have hcanonical : (iteratedChain [1]).db.Canonical [1] (sampleHeader [1] [0] 1 1) := by
    unfold Database.Canonical
    decide +kernel
  refine ⟨c', hc', (heads_back_iff (iterated [1]) (samplePut (heavier 2 [1]))
    (sampleItem (heavier 2 [1])) (quiet_iterated [1]) ⟨by decide +kernel, by decide +kernel⟩ rfl
    (headsCanonical_iterated hcanonical) rfl hc' ⟨2, by decide, ?_⟩).2 ?_⟩
  · intro hsame
    have hold : (iteratedChain [1]).db.numberToHash 2 = some [2] := by decide +kernel
    change c'.db.numberToHash 2 = (iteratedChain [1]).db.numberToHash 2 at hsame
    rw [hold] at hsame
    cases (Except.ok.inj hnew).symm.trans hsame
  · intro name hash n hhead hn hlt
    change (iteratedChain [1]).state.heads name = some hash at hhead
    change (iteratedChain [1]).db.hashToNumber hash = some n at hn
    rw [iteratedChain_heads] at hhead
    by_cases hname : name = "vm"
    · subst hname
      rw [Function.update_self] at hhead
      obtain rfl := Option.some.inj hhead
      have hone : (iteratedChain [1]).db.hashToNumber [1] = some 1 := by decide +kernel
      rw [hone] at hn
      cases hn
      exact absurd hlt (by decide)
    · rw [Function.update_of_ne hname] at hhead
      cases hhead

/-- **With the head on block 2, a heavier block 1 takes it along**: the head
is on a block its iterator has not seen. -/
theorem head_skips_to_heavier : HeadsCanonical (iteratedChain [2]) ∧ ∃ c',
    (iteratedChain [2]).call sampleConfig (samplePut (heavier 1 [0])) = .ok c' ∧
      ¬ HeadsBack (iteratedChain [2]) c' := by
  have hcanonical : (iteratedChain [2]).db.Canonical [2] (sampleHeader [2] [1] 2 1) := by
    unfold Database.Canonical
    decide +kernel
  have hfinal : ((iteratedChain [2]).call sampleConfig (samplePut (heavier 1 [0]))).map
      (fun c => (c.state.heads "vm", c.db.numberToHash 1, c.db.header 1 [3])) =
        .ok (some [3], some [3], some (heavier 1 [0])) := by decide +kernel
  cases hc' : (iteratedChain [2]).call sampleConfig (samplePut (heavier 1 [0])) with
  | error e =>
    rw [hc'] at hfinal
    cases hfinal
  | ok c' =>
    rw [hc'] at hfinal
    obtain ⟨hhead, hrest⟩ := Prod.mk.inj (Except.ok.inj hfinal)
    refine ⟨headsCanonical_iterated hcanonical, c', rfl, fun hback => ?_⟩
    obtain ⟨x', ⟨hx', -⟩, hash, x, hold, hx, hxx'⟩ := hback "vm" [3] hhead
    -- the headers of the old chain have other hashes
    have hcalls : Admissible sampleConfig (iterated [2]) := ⟨by decide +kernel, by decide +kernel⟩
    have hcalls' : Admissible sampleConfig (iterated [2] ++ [samplePut (heavier 1 [0])]) :=
      ⟨by decide +kernel, by decide +kernel⟩
    obtain ⟨chain, h⟩ := (Kept.init List.mem_cons_self).foldl hcalls.admits
      (fun _ hcall _ hop => mem_headersPut hcall hop) (quiet_iterated [2])
    have hmem : x' ∈ headersPut sampleConfig (iterated [2]) :=
      h.indexed.ancestor_mem hcalls.admits (h.indexed.header _ _ _ hx).1 hxx'
    obtain ⟨chain', h'⟩ := (Kept.init List.mem_cons_self).foldl hcalls'.admits
      (fun _ hcall _ hop => mem_headersPut hcall hop) (fun call hcall => by
        rcases List.mem_append.1 hcall with hcall | hcall
        · exact quiet_iterated [2] call hcall
        · rw [List.mem_singleton.1 hcall]
          exact ⟨fun _ _ _ => rfl, fun _ => rfl⟩)
    rw [List.foldl_append, List.foldl_cons, List.foldl_nil] at h'
    change Kept _ _ (Chain.after sampleConfig (iteratedChain [2]) _) _ at h'
    rw [Chain.after_of_call hc'] at h'
    have hhash : x'.extraData = [3] := (h'.indexed.header _ _ _ hx').2.1
    exact absurd hhash ((by decide +kernel :
      ∀ z ∈ headersPut sampleConfig (iterated [2]), z.extraData ≠ [3]) x' hmem)

end TsEthereum.Blockchain
