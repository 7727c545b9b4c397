import TsEthereum.Common.JsMap
import TsEthereum.Common.Bytes
import Mathlib.Data.List.TakeWhile
import Mathlib.Logic.Basic

/-!
# The bytecode fetcher

`ByteCodeFetcher` (`sync/fetcher/bytecodefetcher.ts`): a backlog of code hashes, and
what `request` makes of the reply to a task. An index walks the hashes that were
asked for while the codes are read, and what it passes goes back to the
backlog. It stays on a hash that was found, which it passes at the next code, and
what it has not come to at the last code is passed by nothing. So every hash is
found or goes back, and not both, for few replies (`accounted_request_iff`).
-/

namespace TsEthereum

namespace Sync

/-- **A bytecode fetcher**, by its backlog. -/
structure ByteCodeFetcher where
  hashes : List Bytes
  deriving DecidableEq

namespace ByteCodeFetcher

/-! ## Requests -/

variable (keccak : Bytes → Bytes)

/-- **The codes are read**, with the hashes from `requestedHashIndex` on: those before the hash
of a code are missing, and a code after the last match ends the loop. The codes received are by
hash, and those missing in the order of the request. -/
def readCodes : List Bytes → List Bytes → JsMap Bytes Bytes → List Bytes →
    JsMap Bytes Bytes × List Bytes
  | [], _, receivedCodes, missingCodeHashes => (receivedCodes, missingCodeHashes)
  | receivedCode :: codes, hashes, receivedCodes, missingCodeHashes =>
    let skipped := hashes.takeWhile fun hash => decide (hash ≠ keccak receivedCode)
    let hashes := hashes.dropWhile fun hash => decide (hash ≠ keccak receivedCode)
    if hashes = [] then (receivedCodes, missingCodeHashes ++ skipped)
    else
      readCodes codes hashes (receivedCodes.set (keccak receivedCode) receivedCode)
        (missingCodeHashes ++ skipped)

/-- **`request`**, from the reply on: the codes received, or nothing, and the task is queued
again. -/
def request (fetcher : ByteCodeFetcher) (hashes : List Bytes) (rangeResult : Option (List Bytes)) :
    Option (JsMap Bytes Bytes) × ByteCodeFetcher :=
  match rangeResult with
  | none => (none, fetcher)
  | some codes =>
    if hashes.length < codes.length then (none, fetcher)
    else
      let (receivedCodes, missingCodeHashes) := readCodes keccak codes hashes .empty []
      (some receivedCodes, ⟨fetcher.hashes ++ missingCodeHashes⟩)

/-- The hash is in the result, with its code. -/
def Received (result : Option (JsMap Bytes Bytes)) (hash : Bytes) : Prop :=
  ∃ receivedCodes code, result = some receivedCodes ∧ receivedCodes.get hash = some code ∧
    keccak code = hash

/-- **Every hash is found or back in the backlog**, and not both. -/
def Accounted (fetcher : ByteCodeFetcher) (hashes codes : List Bytes) : Prop :=
  ∀ hash ∈ hashes, Xor (Received keccak (fetcher.request keccak hashes (some codes)).1 hash)
    (hash ∈ (fetcher.request keccak hashes (some codes)).2.hashes.drop fetcher.hashes.length)

/-- **A reply that may come**: the codes asked for in their order, some of them left out, with
other codes between them. -/
def Answers (hashes codes : List Bytes) : Prop :=
  ((codes.map keccak).filter fun hash => decide (hash ∈ hashes)).Sublist hashes

instance (hashes codes : List Bytes) : Decidable (Answers keccak hashes codes) :=
  inferInstanceAs (Decidable (List.Sublist _ _))

/-! ## What is found -/

variable {keccak} {codes hashes missing : List Bytes} {received : JsMap Bytes Bytes}

theorem dropWhile_eq_nil {hash : Bytes} (h : hash ∉ hashes) :
    hashes.dropWhile (fun h => decide (h ≠ hash)) = [] := by
  rw [List.dropWhile_eq_nil_iff]
  rintro h' hmem
  exact decide_eq_true fun heq => h (heq ▸ hmem)

theorem takeWhile_eq_self {hash : Bytes} (h : hash ∉ hashes) :
    hashes.takeWhile (fun h => decide (h ≠ hash)) = hashes := by
  rw [List.takeWhile_eq_self_iff]
  rintro h' hmem
  exact decide_eq_true fun heq => h (heq ▸ hmem)

theorem readCodes_of_notMem {code : Bytes} (h : keccak code ∉ hashes) :
    readCodes keccak (code :: codes) hashes received missing = (received, missing ++ hashes) := by
  simp only [readCodes, dropWhile_eq_nil h, takeWhile_eq_self h, if_true]

/-- **A code that was asked for**: the hashes before it are missing, and the index stays on its
hash. -/
theorem readCodes_append {code : Bytes} {before after : List Bytes}
    (h : keccak code ∉ before) :
    readCodes keccak (code :: codes) (before ++ keccak code :: after) received missing =
      readCodes keccak codes (keccak code :: after) (received.set (keccak code) code)
        (missing ++ before) := by
  have hbefore : ∀ hash ∈ before, decide (hash ≠ keccak code) = true := by
    intro hash hmem
    exact decide_eq_true fun heq => h (heq ▸ hmem)
  have hskip : (before ++ keccak code :: after).takeWhile (fun hash => decide (hash ≠ keccak code)) =
      before := by
    rw [List.takeWhile_append_of_pos hbefore, List.takeWhile_cons_of_neg (by simp),
      List.append_nil]
  have hrest : (before ++ keccak code :: after).dropWhile (fun hash => decide (hash ≠ keccak code)) =
      keccak code :: after := by
    rw [List.dropWhile_append_of_pos hbefore, List.dropWhile_cons_of_neg (by simp)]
  simp only [readCodes, hskip, hrest, List.cons_ne_nil, if_false]

theorem mem_readCodes_of_mem {hash : Bytes} (h : hash ∈ missing) :
    hash ∈ (readCodes keccak codes hashes received missing).2 := by
  induction codes generalizing hashes received missing with
  | nil => exact h
  | cons code codes ih =>
    rw [readCodes]
    split
    · exact List.mem_append_left _ h
    · exact ih (List.mem_append_left _ h)

theorem get_readCodes {hash : Bytes} (h : ∃ code, received.get hash = some code ∧
    keccak code = hash) :
    ∃ code, (readCodes keccak codes hashes received missing).1.get hash = some code ∧
      keccak code = hash := by
  induction codes generalizing hashes received missing with
  | nil => exact h
  | cons code codes ih =>
    rw [readCodes]
    split
    · exact h
    · refine ih ?_
      rw [JsMap.get_set]
      by_cases heq : hash = keccak code
      · exact ⟨code, if_pos heq, heq.symm⟩
      · rwa [if_neg heq]

theorem request_of_le (fetcher : ByteCodeFetcher) (h : codes.length ≤ hashes.length) :
    fetcher.request keccak hashes (some codes) =
      (some (readCodes keccak codes hashes .empty []).1,
        ⟨fetcher.hashes ++ (readCodes keccak codes hashes .empty []).2⟩) := by
  rw [request, if_neg (Nat.not_lt.2 h)]

theorem accounted_of_le (fetcher : ByteCodeFetcher) (h : codes.length ≤ hashes.length) :
    fetcher.Accounted keccak hashes codes ↔ ∀ hash ∈ hashes,
      Xor (∃ code, (readCodes keccak codes hashes .empty []).1.get hash = some code ∧
        keccak code = hash) (hash ∈ (readCodes keccak codes hashes .empty []).2) := by
  have hreceived : ∀ hash, Received keccak (fetcher.request keccak hashes (some codes)).1 hash ↔
      ∃ code, (readCodes keccak codes hashes .empty []).1.get hash = some code ∧
        keccak code = hash := by
    intro hash
    rw [request_of_le fetcher h]
    constructor
    · rintro ⟨_, code, ⟨⟩, hget⟩
      exact ⟨code, hget⟩
    · rintro ⟨code, hget⟩
      exact ⟨_, code, rfl, hget⟩
  simp only [Accounted, hreceived]
  simp only [request_of_le fetcher h, List.drop_left]

theorem not_accounted_of_lt (fetcher : ByteCodeFetcher) (h : hashes.length < codes.length)
    (hne : hashes ≠ []) : ¬ fetcher.Accounted keccak hashes codes := by
  have hrequest : fetcher.request keccak hashes (some codes) = (none, fetcher) := by
    rw [request, if_pos h]
  obtain ⟨hash, hmem⟩ := List.exists_mem_of_ne_nil hashes hne
  intro haccounted
  rcases haccounted hash hmem with ⟨⟨_, _, hnone, -⟩, -⟩ | ⟨hback, -⟩
  · rw [hrequest] at hnone
    cases hnone
  · rw [hrequest, List.drop_length] at hback
    cases hback

theorem not_xor_of_cons {code next : Bytes} {before after : List Bytes}
    (hcode : keccak code ∉ before) (hnext : keccak next ≠ keccak code) :
    ¬ Xor (∃ found, (readCodes keccak (code :: next :: codes) (before ++ keccak code :: after)
        received missing).1.get (keccak code) = some found ∧ keccak found = keccak code)
      (keccak code ∈ (readCodes keccak (code :: next :: codes) (before ++ keccak code :: after)
        received missing).2) := by
  rw [readCodes_append hcode]
  have hfound : ∃ found, (readCodes keccak (next :: codes) (keccak code :: after)
      (received.set (keccak code) code) (missing ++ before)).1.get (keccak code) = some found ∧
        keccak found = keccak code :=
    get_readCodes ⟨code, by rw [JsMap.get_set, if_pos rfl], rfl⟩
  have hskip : (keccak code :: after).takeWhile (fun hash => decide (hash ≠ keccak next)) =
      keccak code :: after.takeWhile fun hash => decide (hash ≠ keccak next) := by
    exact List.takeWhile_cons_of_pos (decide_eq_true hnext.symm)
  have hmissing : keccak code ∈ (readCodes keccak (next :: codes) (keccak code :: after)
      (received.set (keccak code) code) (missing ++ before)).2 := by
    rw [readCodes, hskip]
    split
    · exact List.mem_append_right _ List.mem_cons_self
    · exact mem_readCodes_of_mem (List.mem_append_right _ List.mem_cons_self)
  rintro (⟨-, hnot⟩ | ⟨-, hnot⟩)
  · exact hnot hmissing
  · exact hnot hfound

/-! ## When every hash is accounted for -/

/-- **Every hash is found or goes back, and not both, exactly if** nothing was asked for, or the
reply is not too long and begins with a code that was not asked for, or is the last code alone. -/
theorem accounted_request_iff (fetcher : ByteCodeFetcher) (hnodup : hashes.Nodup)
    (hanswers : Answers keccak hashes codes) :
    fetcher.Accounted keccak hashes codes ↔ hashes = [] ∨ (codes.length ≤ hashes.length ∧
      ∃ code rest, codes = code :: rest ∧
        (keccak code ∉ hashes ∨ (rest = [] ∧ hashes.getLast? = some (keccak code)))) := by
  rcases List.eq_nil_or_concat' hashes with rfl | ⟨init, last, hinit⟩
  · refine iff_of_true ?_ (.inl rfl)
    intro hash hmem
    cases hmem
  have hne : hashes ≠ [] := by
    rw [hinit]
    exact List.append_ne_nil_of_right_ne_nil _ (List.cons_ne_nil _ _)
  have hlast : hashes.getLast? = some last := by rw [hinit, List.getLast?_concat]
  rcases Nat.lt_or_ge hashes.length codes.length with hlong | hlength
  · refine iff_of_false (not_accounted_of_lt fetcher hlong hne) ?_
    rintro (hnil | ⟨hle, -⟩)
    · exact hne hnil
    · exact absurd hlong (Nat.not_lt.2 hle)
  rw [accounted_of_le fetcher hlength]
  simp only [hne, false_or, hlength, true_and]
  cases codes with
  | nil =>
    -- no code is read, and no hash is passed
    refine iff_of_false (fun haccounted => ?_) ?_
    · rcases haccounted last (hinit ▸ List.mem_concat_self) with ⟨⟨_, hget, -⟩, -⟩ | ⟨hmem, -⟩
      · cases hget
      · cases hmem
    · rintro ⟨_, _, hcons, -⟩
      cases hcons
  | cons code rest =>
    simp only [List.cons.injEq, existsAndEq, true_and]
    by_cases hcode : keccak code ∈ hashes
    · obtain ⟨before, after, hsplit⟩ := List.append_of_mem hcode
      have hbefore : keccak code ∉ before ∧ keccak code ∉ after := by
        rw [hsplit, List.nodup_append] at hnodup
        exact ⟨fun hmem => hnodup.2.2 _ hmem _ List.mem_cons_self rfl,
          (List.nodup_cons.1 hnodup.2.1).1⟩
      cases rest with
      | cons next rest =>
        -- the hash of the first code is passed at the second
        have hnext : keccak next ≠ keccak code := by
          intro heq
          have hfilter := hanswers.nodup hnodup
          rw [List.map_cons, List.map_cons, heq, List.filter_cons_of_pos (by simpa using hcode),
            List.filter_cons_of_pos (by simpa using hcode)] at hfilter
          exact (List.nodup_cons.1 hfilter).1 List.mem_cons_self
        refine iff_of_false (fun haccounted => ?_) ?_
        · have hxor := haccounted _ hcode
          rw [hsplit] at hxor
          exact not_xor_of_cons hbefore.1 hnext hxor
        · rintro (hnot | ⟨hnil, -⟩)
          · exact hnot hcode
          · cases hnil
      | nil =>
        have hread : readCodes keccak [code] hashes .empty [] =
            (JsMap.empty.set (keccak code) code, before) := by
          rw [hsplit, readCodes_append hbefore.1, readCodes, List.nil_append]
        rw [hread]
        simp only [hcode, not_true_eq_false, false_or, true_and, JsMap.get_set, JsMap.get_empty]
        constructor
        · -- what comes after the match is not passed
          intro haccounted
          rcases List.eq_nil_or_concat' after with rfl | ⟨init', last', hafter⟩
          · rw [hsplit, List.getLast?_concat]
          · have hmem : last' ∈ after := hafter ▸ List.mem_concat_self
            have hlost := haccounted last' (by rw [hsplit]; simp [hmem])
            have hother : last' ≠ keccak code := by
              rintro rfl
              exact hbefore.2 hmem
            rw [if_neg hother] at hlost
            rcases hlost with ⟨⟨_, hget, -⟩, -⟩ | ⟨hback, -⟩
            · cases hget
            · rw [hsplit, List.nodup_append] at hnodup
              exact absurd rfl (hnodup.2.2 _ hback _ (List.mem_cons_of_mem _ hmem))
        · intro hend hash hmem
          have hafter : after = [] := by
            rcases List.eq_nil_or_concat' after with rfl | ⟨init', last', rfl⟩
            · rfl
            · rw [hsplit, ← List.cons_append, ← List.append_assoc, List.getLast?_concat] at hend
              exact absurd (Option.some.inj hend ▸ List.mem_concat_self) hbefore.2
          rw [hsplit, hafter] at hmem
          rcases List.mem_append.1 hmem with hback | hfound
          · have hother : hash ≠ keccak code := by
              rintro rfl
              exact hbefore.1 hback
            refine .inr ⟨hback, ?_⟩
            rw [if_neg hother]
            rintro ⟨_, hget, -⟩
            cases hget
          · obtain rfl := List.mem_singleton.1 hfound
            exact .inl ⟨⟨code, if_pos rfl, rfl⟩, hbefore.1⟩
    · refine iff_of_true (fun hash hmem => ?_) (.inl hcode)
      rw [readCodes_of_notMem hcode, List.nil_append]
      refine .inr ⟨hmem, ?_⟩
      rintro ⟨_, hget, -⟩
      cases hget

/-- The hash of one zero byte, and of a byte 1. -/
def zeroHash : Bytes :=
  [0xbc, 0x36, 0x78, 0x9e, 0x7a, 0x1e, 0x28, 0x14, 0x36, 0x46, 0x42, 0x29, 0x82, 0x8f, 0x81, 0x7d,
    0x66, 0x12, 0xf7, 0xb4, 0x77, 0xd6, 0x65, 0x91, 0xff, 0x96, 0xa9, 0xe0, 0x64, 0xbc, 0xc9, 0x8a]

def oneHash : Bytes :=
  [0x5f, 0xe7, 0xf9, 0x77, 0xe7, 0x1d, 0xba, 0x2e, 0xa1, 0xa6, 0x8e, 0x21, 0x05, 0x7b, 0xee, 0xbb,
    0x9b, 0xe2, 0xac, 0x30, 0xc6, 0x41, 0x0a, 0xa3, 0x8d, 0x4f, 0x3f, 0xbe, 0x41, 0xdc, 0xff, 0xd2]

/-- `keccak_256` of the two. -/
def sampleKeccak (code : Bytes) : Bytes := if code = [0] then zeroHash else oneHash

/-- **Two codes are asked for, and both come**: the first hash goes back all the same. -/
theorem not_accounted_sample : [zeroHash, oneHash].Nodup ∧
    Answers sampleKeccak [zeroHash, oneHash] [[0], [1]] ∧
    ¬ Accounted sampleKeccak ⟨[]⟩ [zeroHash, oneHash] [[0], [1]] := by
  refine ⟨by decide, by decide, fun haccounted => ?_⟩
  rcases haccounted zeroHash List.mem_cons_self with ⟨-, hback⟩ | ⟨-, hfound⟩
  · exact hback (by decide)
  · exact hfound ⟨_, [0], rfl, by decide, rfl⟩

/-- The second code alone, as an instance of the theorem. -/
theorem accounted_request_iff_sample :
    Accounted sampleKeccak ⟨[]⟩ [zeroHash, oneHash] [[1]] := by
  refine (accounted_request_iff ⟨[]⟩ (by decide) (by decide)).2
    (.inr ⟨by decide, [1], [], rfl, ?_⟩)
  exact .inr ⟨rfl, rfl⟩

end ByteCodeFetcher

end Sync

end TsEthereum
