import TsEthereum.Common.JsMap
import TsEthereum.Rlp.RoundTrip
import Mathlib.Data.List.Sort

/-!
# Shared protocols

What two `RLPxConnection`s agree on (`rlpx/connection.ts`): of the capabilities of both
the highest version by name, in the order of the names, each with the codes after
those of the one before. The two come to one list (`protocols_comm`). A code is sent as an
RLP item, and the first byte of the body is read as the code, so that codes from
128 on do not arrive (`negotiates_iff`).
-/

namespace TsEthereum

namespace Rlpx

/-- A name, by its code units. -/
abbrev Name := List (Fin 65536)

/-- A property of an object that is no key of it. -/
def protoName : Name := [95, 95, 112, 114, 111, 116, 111, 95, 95]

/-- **`Capability`**: a protocol with its number of codes. -/
structure Capability where
  name : Name
  version : ℕ
  length : ℕ
  deriving DecidableEq

structure ProtocolDescriptor where
  name : Name
  version : ℕ
  offset : ℕ
  length : ℕ
  deriving DecidableEq

def BASE_PROTOCOL_LENGTH : ℕ := 16

/-! ## The two messages -/

/-- The capabilities of a `Hello`. -/
def helloOf (capabilities : List Capability) : List (Name × ℕ) :=
  capabilities.map fun c => (c.name, c.version)

/-- The body of the inner loop, for a capability of both. -/
def keepHighest (shared : JsMap Name Capability) (c : Capability) : JsMap Name Capability :=
  match shared.get c.name with
  | some other => if c.version < other.version then shared else shared.set c.name c
  | none => shared.set c.name c

/-- **The capabilities of both**, by name: a version is written over by one that is not lower. -/
def shared (capabilities : List Capability) (hello : List (Name × ℕ)) : JsMap Name Capability :=
  hello.foldl (fun shared item =>
    capabilities.foldl (fun shared c =>
      if c.name ≠ item.1 ∨ c.version ≠ item.2 then shared else keepHighest shared c) shared) .empty

/-- `Object.keys`, with what is under them. -/
def sharedValues (capabilities : List Capability) (hello : List (Name × ℕ)) : List Capability :=
  ((shared capabilities hello).entries.filter fun e => e.1 ≠ protoName).map Prod.snd

/-- The offsets, one after the other. -/
def assignOffsets : ℕ → List Capability → List ProtocolDescriptor
  | _, [] => []
  | offset, obj :: objs =>
    ⟨obj.name, obj.version, offset, obj.length⟩ :: assignOffsets (offset + obj.length) objs

/-- **The protocols of a connection**, after `_handleHello`. -/
def protocols (capabilities : List Capability) (hello : List (Name × ℕ)) :
    List ProtocolDescriptor :=
  assignOffsets BASE_PROTOCOL_LENGTH
    ((sharedValues capabilities hello).insertionSort fun a b => a.name ≤ b.name)

/-- What a message is for: the connection or one of its protocols. -/
inductive Handler
  | connection
  | protocol (obj : ProtocolDescriptor)
  deriving DecidableEq

def Handler.offset : Handler → ℕ
  | connection => 0
  | protocol obj => obj.offset

/-- **`_getProtocol`.** -/
def getProtocol (protocols : List ProtocolDescriptor) (code : ℕ) : Option Handler :=
  if code < BASE_PROTOCOL_LENGTH then some .connection
  else (protocols.find? fun obj =>
    decide (obj.offset ≤ code) && decide (code < obj.offset + obj.length)).map .protocol

/-- **`_sendMessage`**, up to the frame. -/
def sendMessage (code : ℕ) (data : Bytes) : Bytes := Rlp.encodeBytes (bigEndian code) ++ data

/-- **`_handleBody`**, after `Hello`: who handles the message, and its code there. -/
def handleBody (protocols : List ProtocolDescriptor) : Bytes → Option (Handler × ℕ)
  | [] => none
  | byte :: _ =>
    let code := if byte = 0x80 then 0 else byte.toNat
    (getProtocol protocols code).map fun protocolObj => (protocolObj, code - protocolObj.offset)

/-! ## What is to be agreed on -/

/-- Both have the version. -/
def Common (ours theirs : List Capability) (name : Name) (version : ℕ) : Prop :=
  (∃ c ∈ ours, c.name = name ∧ c.version = version) ∧
    ∃ c ∈ theirs, c.name = name ∧ c.version = version

instance (ours theirs : List Capability) (name : Name) (version : ℕ) :
    Decidable (Common ours theirs name version) :=
  inferInstanceAs (Decidable (_ ∧ _))

/-- Both have it, and no higher version of the protocol. -/
def Highest (ours theirs : List Capability) (c : Capability) : Prop :=
  Common ours theirs c.name c.version ∧
    ∀ c' ∈ ours, c'.name = c.name → Common ours theirs c'.name c'.version → c'.version ≤ c.version

instance (ours theirs : List Capability) (c : Capability) : Decidable (Highest ours theirs c) :=
  inferInstanceAs (Decidable (_ ∧ ∀ c' ∈ ours, _))

/-- One version of a protocol has one length. -/
def LengthsAgree (ours theirs : List Capability) : Prop :=
  ∀ c ∈ ours ++ theirs, ∀ c' ∈ ours ++ theirs,
    c.name = c'.name → c.version = c'.version → c.length = c'.length

instance (ours theirs : List Capability) : Decidable (LengthsAgree ours theirs) :=
  inferInstanceAs (Decidable (∀ c ∈ ours ++ theirs, ∀ c' ∈ ours ++ theirs, _))

/-- A message of a protocol is of that protocol at the other end, with its code there. -/
def Dispatches (sender receiver : List ProtocolDescriptor) : Prop :=
  ∀ obj ∈ sender, ∀ code < obj.length, ∀ data,
    handleBody receiver (sendMessage (obj.offset + code) data) = some (.protocol obj, code)

/-- **The two ends agree**: on the list, with the highest common version of every name, and on
what every message of a protocol is. -/
structure Negotiates (ours theirs : List Capability) : Prop where
  same : protocols ours (helloOf theirs) = protocols theirs (helloOf ours)
  highest : ∀ c, Highest ours theirs c →
    ∃ obj ∈ protocols ours (helloOf theirs), obj.name = c.name ∧ obj.version = c.version
  dispatched : Dispatches (protocols ours (helloOf theirs)) (protocols theirs (helloOf ours))
  returned : Dispatches (protocols theirs (helloOf ours)) (protocols ours (helloOf theirs))

/-! ## The shared list -/

variable {ours theirs capabilities : List Capability} {hello : List (Name × ℕ)} {c : Capability}

/-- **The highest versions of what was seen**, by name. -/
structure Best (seen : Capability → Prop) (m : JsMap Name Capability) : Prop where
  get : ∀ name c, m.get name = some c →
    seen c ∧ c.name = name ∧ ∀ c', seen c' → c'.name = name → c'.version ≤ c.version
  some : ∀ c, seen c → m.get c.name ≠ none

theorem Best.keepHighest {seen : Capability → Prop} {m : JsMap Name Capability} (h : Best seen m)
    (c : Capability) : Best (fun c' => seen c' ∨ c' = c) (keepHighest m c) := by
  -- the capability is put in, and is not lower than what was there
  have hset (hmax : ∀ c', seen c' → c'.name = c.name → c'.version ≤ c.version) :
      Best (fun c' => seen c' ∨ c' = c) (m.set c.name c) := by
    constructor
    · intro name found hfound
      rw [JsMap.get_set] at hfound
      by_cases hname : name = c.name
      · rw [if_pos hname] at hfound
        cases hfound
        refine ⟨.inr rfl, hname.symm, fun c' hc' heq => ?_⟩
        rcases hc' with hc' | rfl
        · exact hmax c' hc' (heq.trans hname)
        · exact le_rfl
      · rw [if_neg hname] at hfound
        obtain ⟨hseen, hfname, hle⟩ := h.get name found hfound
        refine ⟨.inl hseen, hfname, fun c' hc' heq => ?_⟩
        rcases hc' with hc' | rfl
        · exact hle c' hc' heq
        · exact absurd heq.symm hname
    · intro c' hc'
      rw [JsMap.get_set]
      split
      · exact Option.some_ne_none c
      · rename_i hname
        rcases hc' with hc' | rfl
        · exact h.some c' hc'
        · exact absurd rfl hname
  rw [Rlpx.keepHighest]
  cases hget : m.get c.name with
  | none => exact hset fun c' hc' heq => absurd (heq ▸ hget) (h.some c' hc')
  | some other =>
    obtain ⟨hseen, hname, hle⟩ := h.get _ other hget
    dsimp only
    by_cases hlt : c.version < other.version
    · rw [if_pos hlt]
      constructor
      · intro name found hfound
        obtain ⟨hseen', hfname, hle'⟩ := h.get name found hfound
        refine ⟨.inl hseen', hfname, fun c' hc' heq => ?_⟩
        rcases hc' with hc' | rfl
        · exact hle' c' hc' heq
        · rw [← heq, hget] at hfound
          cases hfound
          exact hlt.le
      · intro c' hc'
        rcases hc' with hc' | rfl
        · exact h.some c' hc'
        · rw [hget]
          exact Option.some_ne_none other
    · rw [if_neg hlt]
      exact hset fun c' hc' heq => (hle c' hc' heq).trans (Nat.not_lt.1 hlt)

theorem Best.congr {seen seen' : Capability → Prop} {m : JsMap Name Capability} (h : Best seen m)
    (hiff : ∀ c, seen c ↔ seen' c) : Best seen' m := by
  obtain rfl : seen = seen' := funext fun c => propext (hiff c)
  exact h

theorem Best.foldl {seen : Capability → Prop} {m : JsMap Name Capability} (h : Best seen m)
    (item : Name × ℕ) (capabilities : List Capability) :
    Best (fun c => seen c ∨ (c ∈ capabilities ∧ (c.name, c.version) = item))
      (capabilities.foldl (fun shared c =>
        if c.name ≠ item.1 ∨ c.version ≠ item.2 then shared else Rlpx.keepHighest shared c) m) := by
  induction capabilities generalizing seen m with
  | nil => exact h.congr fun c => by simp
  | cons first capabilities ih =>
    rw [List.foldl_cons]
    by_cases hskip : first.name ≠ item.1 ∨ first.version ≠ item.2
    · rw [if_pos hskip]
      refine (ih h).congr fun c => ?_
      have hne : (first.name, first.version) ≠ item := by
        rintro rfl
        rcases hskip with hskip | hskip <;> exact hskip rfl
      constructor
      · rintro (hseen | ⟨hmem, heq⟩)
        · exact .inl hseen
        · exact .inr ⟨List.mem_cons_of_mem _ hmem, heq⟩
      · rintro (hseen | ⟨hmem, heq⟩)
        · exact .inl hseen
        · rcases List.mem_cons.1 hmem with rfl | hmem
          · exact absurd heq hne
          · exact .inr ⟨hmem, heq⟩
    · rw [if_neg hskip]
      rw [not_or, not_not, not_not] at hskip
      refine (ih (h.keepHighest first)).congr fun c => ?_
      constructor
      · rintro ((hseen | rfl) | ⟨hmem, heq⟩)
        · exact .inl hseen
        · exact .inr ⟨List.mem_cons_self, Prod.ext hskip.1 hskip.2⟩
        · exact .inr ⟨List.mem_cons_of_mem _ hmem, heq⟩
      · rintro (hseen | ⟨hmem, heq⟩)
        · exact .inl (.inl hseen)
        · rcases List.mem_cons.1 hmem with rfl | hmem
          · exact .inl (.inr rfl)
          · exact .inr ⟨hmem, heq⟩

theorem best_shared (capabilities : List Capability) (hello : List (Name × ℕ)) :
    Best (fun c => c ∈ capabilities ∧ (c.name, c.version) ∈ hello) (shared capabilities hello) := by
  have hloop : ∀ (seen : Capability → Prop) (m : JsMap Name Capability), Best seen m →
      Best (fun c => seen c ∨ (c ∈ capabilities ∧ (c.name, c.version) ∈ hello))
        (hello.foldl (fun shared item => capabilities.foldl (fun shared c =>
          if c.name ≠ item.1 ∨ c.version ≠ item.2 then shared else keepHighest shared c) shared)
            m) := by
    induction hello with
    | nil => exact fun seen m h => h.congr fun c => by simp
    | cons item hello ih =>
      intro seen m h
      refine (ih _ _ (h.foldl item capabilities)).congr fun c => ?_
      rw [List.mem_cons, and_or_left, or_assoc]
  refine (hloop (fun _ => False) .empty ⟨?_, fun c hc => hc.elim⟩).congr fun c => by simp
  intro name c hget
  cases hget

theorem mem_helloOf {name : Name} {version : ℕ} :
    (name, version) ∈ helloOf theirs ↔ ∃ c ∈ theirs, c.name = name ∧ c.version = version := by
  rw [helloOf, List.mem_map]
  simp only [Prod.mk.injEq]

/-- **The values are the highest versions of both**, but of the one name that is no key. -/
theorem mem_sharedValues (hlengths : LengthsAgree ours theirs) :
    c ∈ sharedValues ours (helloOf theirs) ↔
      c ∈ ours ∧ Highest ours theirs c ∧ c.name ≠ protoName := by
  have hbest := best_shared ours (helloOf theirs)
  rw [sharedValues, List.mem_map]
  constructor
  · rintro ⟨⟨name, c'⟩, hmem, rfl⟩
    obtain ⟨hentry, hname⟩ := List.mem_filter.1 hmem
    obtain ⟨⟨hours, htheirs⟩, rfl, hle⟩ := hbest.get _ _ (JsMap.get_eq_some.2 hentry)
    refine ⟨hours, ⟨⟨⟨c', hours, rfl, rfl⟩, mem_helloOf.1 htheirs⟩, ?_⟩, of_decide_eq_true hname⟩
    exact fun other hother heq hcommon => hle other ⟨hother, mem_helloOf.2 hcommon.2⟩ heq
  · rintro ⟨hours, ⟨hcommon, hmax⟩, hname⟩
    have hseen := mem_helloOf.2 hcommon.2
    obtain ⟨found, hget⟩ := Option.ne_none_iff_exists'.1 (hbest.some c ⟨hours, hseen⟩)
    obtain ⟨⟨hours', htheirs⟩, hfname, hle⟩ := hbest.get _ _ hget
    have hversion : found.version = c.version := by
      have hcommon' : Common ours theirs found.name found.version :=
        ⟨⟨found, hours', rfl, rfl⟩, mem_helloOf.1 htheirs⟩
      exact le_antisymm (hmax found hours' hfname hcommon') (hle c ⟨hours, hseen⟩ rfl)
    have hlength := hlengths found (List.mem_append_left _ hours') c (List.mem_append_left _ hours)
      hfname hversion
    obtain ⟨name, version, length⟩ := c
    obtain ⟨name', version', length'⟩ := found
    dsimp only at hfname hversion hlength
    subst hfname hversion hlength
    exact ⟨_, List.mem_filter.2 ⟨JsMap.get_eq_some.1 hget, decide_eq_true hname⟩, rfl⟩

theorem nodup_names (capabilities : List Capability) (hello : List (Name × ℕ)) :
    ((sharedValues capabilities hello).map Capability.name).Nodup := by
  have hkeys : ((shared capabilities hello).entries.filter fun e => e.1 ≠ protoName).map
      (Capability.name ∘ Prod.snd) =
        ((shared capabilities hello).entries.filter fun e => e.1 ≠ protoName).map Prod.fst := by
    refine List.map_congr_left fun e he => ?_
    exact ((best_shared capabilities hello).get e.1 e.2
      (JsMap.get_eq_some.2 (List.mem_of_mem_filter he))).2.1
  rw [sharedValues, List.map_map, hkeys]
  exact (shared capabilities hello).nodup.sublist (List.filter_sublist.map Prod.fst)

theorem highest_comm (hlengths : LengthsAgree ours theirs) (hours : c ∈ ours)
    (h : Highest ours theirs c) : c ∈ theirs ∧ Highest theirs ours c := by
  obtain ⟨⟨hin, hin'⟩, hmax⟩ := h
  obtain ⟨c', hc', hname, hversion⟩ := hin'
  have hlength := hlengths c' (List.mem_append_right _ hc') c (List.mem_append_left _ hours)
    hname hversion
  refine ⟨?_, ⟨⟨c', hc', hname, hversion⟩, hin⟩, ?_⟩
  · obtain ⟨name, version, length⟩ := c
    obtain ⟨name', version', length'⟩ := c'
    dsimp only at hname hversion hlength
    subst hname hversion hlength
    exact hc'
  · intro other hother heq hcommon
    obtain ⟨o, ho, honame, hoversion⟩ := hcommon.2
    have := hmax o ho (honame.trans heq) (by rw [honame, hoversion]; exact hcommon.symm)
    rwa [hoversion] at this

theorem pairwise_insertionSort (capabilities : List Capability) (hello : List (Name × ℕ)) :
    ((sharedValues capabilities hello).insertionSort fun a b => a.name ≤ b.name).Pairwise
      fun a b => a.name < b.name := by
  have : Std.Total fun a b : Capability => a.name ≤ b.name := ⟨fun a b => le_total a.name b.name⟩
  have : IsTrans Capability fun a b => a.name ≤ b.name := ⟨fun a b c => le_trans⟩
  have hsorted := List.pairwise_insertionSort (fun a b : Capability => a.name ≤ b.name)
    (sharedValues capabilities hello)
  have hnodup := nodup_names capabilities hello
  rw [← ((List.perm_insertionSort (fun a b : Capability => a.name ≤ b.name)
    (sharedValues capabilities hello)).map Capability.name).nodup_iff, List.Nodup,
    List.pairwise_map] at hnodup
  exact (hsorted.and hnodup).imp fun h => lt_of_le_of_ne h.1 h.2

theorem protocols_comm (hlengths : LengthsAgree ours theirs) :
    protocols ours (helloOf theirs) = protocols theirs (helloOf ours) := by
  have hlengths' : LengthsAgree theirs ours := by
    intro c hc c' hc'
    exact hlengths c (List.mem_append.2 (List.mem_append.1 hc).symm) c'
      (List.mem_append.2 (List.mem_append.1 hc').symm)
  have hperm : (sharedValues ours (helloOf theirs)).Perm (sharedValues theirs (helloOf ours)) := by
    rw [List.perm_ext_iff_of_nodup (.of_map _ (nodup_names _ _)) (.of_map _ (nodup_names _ _))]
    intro c
    rw [mem_sharedValues hlengths, mem_sharedValues hlengths']
    constructor
    · rintro ⟨hc, hhighest, hname⟩
      obtain ⟨hc', hhighest'⟩ := highest_comm hlengths hc hhighest
      exact ⟨hc', hhighest', hname⟩
    · rintro ⟨hc, hhighest, hname⟩
      obtain ⟨hc', hhighest'⟩ := highest_comm hlengths' hc hhighest
      exact ⟨hc', hhighest', hname⟩
  rw [protocols, protocols]
  refine congrArg (assignOffsets _) ?_
  refine List.Perm.eq_of_pairwise ?_ (pairwise_insertionSort _ _) (pairwise_insertionSort _ _) ?_
  · exact fun a b _ _ hab hba => absurd hab hba.asymm
  · exact ((List.perm_insertionSort _ _).trans hperm).trans (List.perm_insertionSort _ _).symm

/-! ## Codes -/

variable {objs : List Capability} {offset code : ℕ} {obj : ProtocolDescriptor}

theorem bounds_assignOffsets (h : obj ∈ assignOffsets offset objs) :
    offset ≤ obj.offset ∧ obj.offset + obj.length ≤ offset + (objs.map Capability.length).sum := by
  induction objs generalizing offset with
  | nil => cases h
  | cons first objs ih =>
    rw [List.map_cons, List.sum_cons]
    rcases List.mem_cons.1 h with rfl | hmem
    · exact ⟨le_rfl, by dsimp only; omega⟩
    · have := ih hmem
      omega

theorem exists_assignOffsets (hle : offset ≤ code)
    (hlt : code < offset + (objs.map Capability.length).sum) :
    ∃ obj ∈ assignOffsets offset objs, obj.offset ≤ code ∧ code < obj.offset + obj.length := by
  induction objs generalizing offset with
  | nil =>
    rw [List.map_nil, List.sum_nil] at hlt
    omega
  | cons first objs ih =>
    rw [List.map_cons, List.sum_cons] at hlt
    by_cases hfirst : code < offset + first.length
    · exact ⟨_, List.mem_cons_self, hle, hfirst⟩
    · obtain ⟨obj, hmem, hobj⟩ := ih (Nat.not_lt.1 hfirst) (by omega)
      exact ⟨obj, List.mem_cons_of_mem _ hmem, hobj⟩

theorem find?_assignOffsets (h : obj ∈ assignOffsets offset objs) (hle : obj.offset ≤ code)
    (hlt : code < obj.offset + obj.length) :
    (assignOffsets offset objs).find? (fun obj =>
      decide (obj.offset ≤ code) && decide (code < obj.offset + obj.length)) = some obj := by
  induction objs generalizing offset with
  | nil => cases h
  | cons first objs ih =>
    rcases List.mem_cons.1 h with rfl | hmem
    · rw [assignOffsets, List.find?_cons_of_pos (by simpa using ⟨hle, hlt⟩)]
    · have hbounds := (bounds_assignOffsets hmem).1
      rw [assignOffsets, List.find?_cons_of_neg (by simp; omega)]
      exact ih hmem

theorem sendMessage_of_lt (hpos : 0 < code) (hlt : code < 128) (data : Bytes) :
    sendMessage code data = UInt8.ofNat code :: data := by
  rw [sendMessage, Rlp.bigEndian_of_lt hpos (by omega), Rlp.encodeBytes,
    if_pos (by rw [UInt8.toNat_ofNat']; omega)]
  rfl

theorem mem_assignOffsets (h : obj ∈ assignOffsets offset objs) :
    ⟨obj.name, obj.version, obj.length⟩ ∈ objs := by
  induction objs generalizing offset with
  | nil => cases h
  | cons first objs ih =>
    rcases List.mem_cons.1 h with rfl | hmem
    · exact List.mem_cons_self
    · exact List.mem_cons_of_mem _ (ih hmem)

theorem exists_mem_assignOffsets (h : c ∈ objs) (offset : ℕ) :
    ∃ obj ∈ assignOffsets offset objs, obj.name = c.name ∧ obj.version = c.version := by
  induction objs generalizing offset with
  | nil => cases h
  | cons first objs ih =>
    rcases List.mem_cons.1 h with rfl | hmem
    · exact ⟨_, List.mem_cons_self, rfl, rfl⟩
    · obtain ⟨obj, hobj, heq⟩ := ih hmem (offset + first.length)
      exact ⟨obj, List.mem_cons_of_mem _ hobj, heq⟩

theorem exists_highest {name : Name} {version : ℕ} (h : Common ours theirs name version) :
    ∃ c ∈ ours, c.name = name ∧ Highest ours theirs c := by
  obtain ⟨⟨c, hc, rfl, rfl⟩, htheirs⟩ := h
  have hbest := best_shared ours (helloOf theirs)
  obtain ⟨found, hget⟩ :=
    Option.ne_none_iff_exists'.1 (hbest.some c ⟨hc, mem_helloOf.2 htheirs⟩)
  obtain ⟨⟨hours, hseen⟩, hname, hle⟩ := hbest.get _ _ hget
  refine ⟨found, hours, hname, ⟨⟨found, hours, rfl, rfl⟩, mem_helloOf.1 hseen⟩, ?_⟩
  exact fun other hother heq hcommon =>
    hle other ⟨hother, mem_helloOf.2 hcommon.2⟩ (heq.trans hname)

theorem sum_sharedValues (hlengths : LengthsAgree ours theirs)
    (hproto : ∀ version, ¬ Common ours theirs protoName version) :
    (((sharedValues ours (helloOf theirs)).insertionSort fun a b => a.name ≤ b.name).map
      Capability.length).sum =
        (((ours.filter fun c => decide (Highest ours theirs c)).dedup).map
          Capability.length).sum := by
  refine (List.Perm.map _ ((List.perm_insertionSort _ _).trans ?_)).sum_eq
  rw [List.perm_ext_iff_of_nodup (.of_map _ (nodup_names _ _)) (List.nodup_dedup _)]
  intro c
  rw [mem_sharedValues hlengths, List.mem_dedup, List.mem_filter, decide_eq_true_eq]
  constructor
  · exact fun h => ⟨h.1, h.2.1⟩
  · rintro ⟨hc, hhighest⟩
    exact ⟨hc, hhighest, fun hname => hproto c.version (hname ▸ hhighest.1)⟩

/-- **The two ends agree exactly if** no common name is one that is no key, and the codes of
what both have end below 128. -/
theorem negotiates_iff (hlengths : LengthsAgree ours theirs) :
    Negotiates ours theirs ↔ (∀ version, ¬ Common ours theirs protoName version) ∧
      BASE_PROTOCOL_LENGTH + (((ours.filter fun c => decide (Highest ours theirs c)).dedup).map
        Capability.length).sum ≤ 128 := by
  have hcomm := protocols_comm hlengths
  constructor
  · intro hnegotiates
    have hproto : ∀ version, ¬ Common ours theirs protoName version := by
      intro version hcommon
      obtain ⟨c, -, hname, hhighest⟩ := exists_highest hcommon
      obtain ⟨obj, hobj, hobjname, -⟩ := hnegotiates.highest c hhighest
      have hmem := (List.perm_insertionSort _ _).mem_iff.1 (mem_assignOffsets hobj)
      exact ((mem_sharedValues hlengths).1 hmem).2.2 (hobjname.trans hname)
    refine ⟨hproto, ?_⟩
    by_contra hlong
    rw [← sum_sharedValues hlengths hproto] at hlong
    -- the code 128 is sent as two bytes, and the first one is 129
    obtain ⟨obj, hobj, hle, hlt⟩ := exists_assignOffsets
      (show BASE_PROTOCOL_LENGTH ≤ 128 by decide) (Nat.not_le.1 hlong)
    have hsent := hnegotiates.dispatched obj hobj (128 - obj.offset) (by omega) []
    rw [Nat.add_sub_cancel' hle, show sendMessage 128 [] = [0x81, 0x80] by
      rw [sendMessage, Rlp.bigEndian_of_lt (by omega) (by omega)]; decide] at hsent
    obtain ⟨handler, -, heq⟩ := Option.map_eq_some_iff.1 hsent
    obtain ⟨rfl, hcode⟩ := Prod.mk.inj heq
    have hbyte : (if (0x81 : UInt8) = 0x80 then 0 else (0x81 : UInt8).toNat) = 129 := by decide
    rw [hbyte, Handler.offset] at hcode
    omega
  · rintro ⟨hproto, hsum⟩
    rw [← sum_sharedValues hlengths hproto] at hsum
    have hdispatches : Dispatches (protocols ours (helloOf theirs))
        (protocols ours (helloOf theirs)) := by
      intro obj hobj code hcode data
      obtain ⟨hle, hlt⟩ := bounds_assignOffsets hobj
      have hbase : 16 ≤ obj.offset := hle
      have hbyte : (UInt8.ofNat (obj.offset + code)).toNat = obj.offset + code := by
        rw [UInt8.toNat_ofNat']
        omega
      have hne : UInt8.ofNat (obj.offset + code) ≠ 0x80 := by
        intro heq
        have := congrArg UInt8.toNat heq
        rw [hbyte, show (0x80 : UInt8).toNat = 128 from rfl] at this
        omega
      rw [sendMessage_of_lt (by omega) (by omega), handleBody]
      simp only [if_neg hne, hbyte]
      rw [getProtocol, if_neg (Nat.not_lt.2 (hle.trans (Nat.le_add_right _ _))), protocols,
        find?_assignOffsets hobj (Nat.le_add_right _ _) (by omega), Option.map_some,
        Option.map_some, Handler.offset, Nat.add_sub_cancel_left]
    refine ⟨hcomm, fun c hhighest => ?_, ?_, ?_⟩
    · obtain ⟨⟨c', hc', hname, hversion⟩, -⟩ := hhighest.1
      have hhighest' : Highest ours theirs c' := by
        rw [Highest, hname, hversion]
        exact hhighest
      have hkey : c'.name ≠ protoName := fun heq => hproto c'.version (heq ▸ hhighest'.1)
      have hmem := (List.perm_insertionSort (fun a b : Capability => a.name ≤ b.name) _).mem_iff.2
        ((mem_sharedValues hlengths).2 ⟨hc', hhighest', hkey⟩)
      obtain ⟨obj, hobj, hobjname, hobjversion⟩ := exists_mem_assignOffsets hmem _
      exact ⟨obj, hobj, hobjname.trans hname, hobjversion.trans hversion⟩
    · rw [← hcomm]
      exact hdispatches
    · rw [← hcomm]
      exact hdispatches

/-- A protocol with 113 codes. -/
def sampleCapability : Capability := ⟨[101, 116, 104], 68, 113⟩

/-- **Its last code is one too many.** -/
theorem not_negotiates_sample : LengthsAgree [sampleCapability] [sampleCapability] ∧
    ¬ Negotiates [sampleCapability] [sampleCapability] := by
  refine ⟨by decide, fun hnegotiates => ?_⟩
  have hsent := hnegotiates.dispatched ⟨[101, 116, 104], 68, 16, 113⟩ (by decide) 112 (by decide) []
  rw [show sendMessage (16 + 112) [] = [0x81, 0x80] by
    rw [sendMessage, Rlp.bigEndian_of_lt (by omega) (by omega)]; decide] at hsent
  revert hsent
  decide

/-- With 112 the two ends agree. -/
theorem negotiates_iff_sample :
    Negotiates [{ sampleCapability with length := 112 }] [{ sampleCapability with length := 112 }] := by
  refine (negotiates_iff (by decide)).2 ⟨fun version => ?_, by decide⟩
  rintro ⟨⟨c, hc, hname, -⟩, -⟩
  rw [List.mem_singleton.1 hc] at hname
  exact absurd hname (by decide)

end Rlpx

end TsEthereum
