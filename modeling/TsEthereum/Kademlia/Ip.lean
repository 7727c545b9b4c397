import TsEthereum.Common.Bytes
import Mathlib.Data.List.TakeDrop
import Mathlib.Data.List.TakeWhile

/-!
# Addresses as texts

`ipToString` and `ipToBytes` (`message.ts`). Of eight groups the first run of zeros that is longer
than one is left out, by two replacements in the text; `ipToBytes` splits the text at its colons and
puts the zeros back, at the front, at the end or in between. Every address comes back
(`ipToBytes_ipToString`).
-/

namespace TsEthereum

namespace Kademlia

/-! ## Numbers -/

/-- A text. -/
abbrev Text : Type := List Char

/-- A digit. -/
def digitChar (n : ℕ) : Char := if n < 10 then Char.ofNat (48 + n) else Char.ofNat (87 + n)

/-- `toString(base)`, of a number with so many digits. -/
def toText (base : ℕ) : ℕ → ℕ → Text
  | 0, _ => []
  | digits + 1, n =>
    if n < base then [digitChar n] else toText base digits (n / base) ++ [digitChar (n % base)]

/-- The value of a digit, in lower or upper case. -/
def digitValue (c : Char) : ℕ :=
  if c.isDigit then c.toNat - 48 else if c.isLower then c.toNat - 87 else c.toNat - 55

/-- `[0-9a-f]` of either case. -/
def isHex (c : Char) : Bool :=
  c.isDigit || ('a' ≤ c && c ≤ 'f') || ('A' ≤ c && c ≤ 'F')

/-- `Number.parseInt(text, base)`, of few digits; what is not a number is 0 to the operators on
bits. -/
def parseInt (isDigit : Char → Bool) (base : ℕ) (text : Text) : ℕ :=
  (text.takeWhile isDigit).foldl (fun n c => n * base + digitValue c) 0

/-- `Number.parseInt(text, 16)`. -/
def parseHex : Text → ℕ := parseInt isHex 16

/-- `Number.parseInt(text, 10)`. -/
def parseDecimal : Text → ℕ := parseInt Char.isDigit 10

/-! ## Splitting -/

def split (sep : Char) : Text → List Text
  | [] => [[]]
  | c :: text =>
    if c = sep then [] :: split sep text
    else
      match split sep text with
      | [] => [[c]]
      | section_ :: sections => (c :: section_) :: sections

def join (sep : Char) : List Text → Text
  | [] => []
  | [text] => text
  | text :: texts => text ++ sep :: join sep texts

/-! ## The two expressions for addresses -/

/-- `isV4Format`: four numbers of one to three digits. -/
def isV4Format (ip : Text) : Bool :=
  let parts := split '.' ip
  parts.length = 4 && parts.all fun part =>
    1 ≤ part.length && part.length ≤ 3 && part.all Char.isDigit

/-- What is left after at most so many characters. -/
def upToChars (p : Char → Bool) : ℕ → Text → List Text
  | 0, text => [text]
  | _ + 1, [] => [[]]
  | n + 1, c :: text => if p c then upToChars p n text ++ [c :: text] else [c :: text]

/-- What is left after one to three digits. -/
def digits : Text → List Text
  | [] => []
  | c :: text => if c.isDigit then upToChars Char.isDigit 2 text else []

/-- What is left after a point. -/
def point : Text → List Text
  | '.' :: text => [text]
  | _ => []

/-- What is left after an address of version 4, that may be left out. -/
def dotted (text : Text) : List Text :=
  ((((((digits text).flatMap point).flatMap digits).flatMap point).flatMap digits).flatMap
    point).flatMap digits ++ [text]

/-- What is left after a group: digits, and at most two colons. -/
def group (text : Text) : List Text :=
  ((dotted text).flatMap (upToChars isHex 4)).flatMap (upToChars (fun c => c = ':') 2)

/-- What is left after at most so many groups. -/
def upToGroups : ℕ → Text → List Text
  | 0, text => [text]
  | n + 1, text => (group text).flatMap (upToGroups n) ++ [text]

/-- What is left after two colons, that may be left out. -/
def twoColons : Text → List Text
  | ':' :: ':' :: text => [text, ':' :: ':' :: text]
  | text => [text]

/-- `isV6Format`: one to eight groups. -/
def isV6Format (ip : Text) : Bool :=
  (((twoColons ip).flatMap fun text => (group text).flatMap (upToGroups 7)).flatMap twoColons).any
    List.isEmpty

/-! ## `ipToString` -/

/-- `(:|$)`: the third group of the match, and what is left. -/
def runEnd : Text → Option (Text × Text)
  | [] => some ([], [])
  | ':' :: text => some ([':'], text)
  | _ => none

/-- `(:0)*:0(:|$)`, as much of it as there is. -/
def zeroRun : Text → Option (Text × Text)
  | ':' :: '0' :: text => (zeroRun text).or (runEnd text)
  | _ => none

/-- The replacement from a colon on. -/
def replaceZerosBehind : Text → Text
  | ':' :: '0' :: text =>
    match zeroRun text with
    | some (colon, rest) => [':', ':', ':'] ++ colon ++ rest
    | none => ':' :: '0' :: replaceZerosBehind text
  | c :: text => c :: replaceZerosBehind text
  | [] => []

/-- `replace(/(^|:)0(:0)*:0(:|$)/, '$1::$3')`. -/
def replaceZeros : Text → Text
  | '0' :: text =>
    match zeroRun text with
    | some (colon, rest) => [':', ':'] ++ colon ++ rest
    | none => '0' :: replaceZerosBehind text
  | text => replaceZerosBehind text

/-- `replace(/:{3,4}/, '::')`. -/
def replaceColons : Text → Text
  | ':' :: ':' :: ':' :: ':' :: text => ':' :: ':' :: text
  | ':' :: ':' :: ':' :: text => ':' :: ':' :: text
  | c :: text => c :: replaceColons text
  | [] => []

/-- `getUint16` at every second byte. -/
def words : Bytes → List ℕ
  | a :: b :: bytes => (a.toNat * 256 + b.toNat) :: words bytes
  | _ => []

/-- **`ipToString`**, of all the bytes. -/
def ipToString (bytes : Bytes) : Text :=
  if bytes.length = 4 then join '.' (bytes.map fun byte => toText 10 3 byte.toNat)
  else if bytes.length = 16 then
    replaceColons (replaceZeros (join ':' ((words bytes).map (toText 16 4))))
  else []

/-! ## `ipToBytes` -/

/-- The bytes of an address of version 4. -/
def v4Bytes (ip : Text) : Bytes := (split '.' ip).map fun byte => UInt8.ofNat (parseDecimal byte)

/-- Two bytes in hex, `bytesToHex(…).slice(2)`. -/
def hexPair (bytes : Bytes) : Text :=
  bytes.flatMap fun byte => [digitChar (byte.toNat / 16), digitChar (byte.toNat % 16)]

/-- The loop over the sections: one of version 4 becomes two. -/
def expandV4 : ℕ → List Text → List Text
  | _, [] => []
  | i, section_ :: sections =>
    if isV4Format section_ then
      let bytes := v4Bytes section_
      hexPair (bytes.take 2) ::
        if i + 1 < 8 then hexPair ((bytes.drop 2).take 2) :: expandV4 (i + 2) sections
        else sections
    else section_ :: expandV4 (i + 1) sections

/-- The zeros are put back. -/
def fillZeros (sections : List Text) : List Text :=
  let zeros := List.replicate (8 - sections.length) ['0']
  if sections.head? = some [] then zeros ++ sections
  else if sections.getLast? = some [] then sections ++ zeros
  else if sections.length < 8 then
    let i := sections.idxOf []
    sections.take i ++ List.replicate (9 - sections.length) ['0'] ++ sections.drop (i + 1)
  else sections

/-- `(word >> 8) & 0xff` and `word & 0xff`. -/
def wordBytes (word : ℕ) : Bytes := [UInt8.ofNat (word / 256), UInt8.ofNat word]

/-- **`ipToBytes`**: what is put behind the end of the array is lost. -/
def ipToBytes (ip : Text) : Except String Bytes :=
  if isV4Format ip then .ok (v4Bytes ip)
  else if isV6Format ip then
    let sections := fillZeros (expandV4 0 ((split ':' ip).take 8))
    let bytes := sections.flatMap fun section_ => wordBytes (parseHex section_)
    .ok ((bytes ++ List.replicate (16 - bytes.length) 0).take 16)
  else .error ("Invalid ip format: " ++ String.ofList ip)

/-! ## Words -/

/-- **A word of an address**, without zeros in front. -/
structure IsWord (word : Text) : Prop where
  hex : ∀ c ∈ word, isHex c = true
  ne_nil : word ≠ []
  length : word.length ≤ 4
  zero : word.head? = some '0' → word = ['0']

theorem digitChar_spec : ∀ d < 16, digitValue (digitChar d) = d ∧ isHex (digitChar d) = true ∧
    (digitChar d = '0' → d = 0) ∧ (d < 10 → (digitChar d).isDigit = true) := by
  decide

theorem toText_spec {base : ℕ} (hbase : 2 ≤ base) (hle : base ≤ 16) (fuel : ℕ) {n : ℕ}
    (h : n < base ^ (fuel + 1)) : (∀ c ∈ toText base (fuel + 1) n, ∃ d < base, c = digitChar d) ∧
      toText base (fuel + 1) n ≠ [] ∧ (toText base (fuel + 1) n).length ≤ fuel + 1 ∧
      ((toText base (fuel + 1) n).head? = some '0' → toText base (fuel + 1) n = ['0']) ∧
      (toText base (fuel + 1) n).foldl (fun n c => n * base + digitValue c) 0 = n := by
  induction fuel generalizing n with
  | zero =>
    rw [Nat.zero_add, pow_one] at h
    rw [toText, if_pos h]
    have hdigit := digitChar_spec n (by omega)
    refine ⟨fun c hc => ⟨n, h, List.mem_singleton.1 hc⟩, List.cons_ne_nil _ _, Nat.le_refl _,
      fun hzero => congrArg (fun c => [c]) (Option.some.inj hzero), ?_⟩
    rw [List.foldl_cons, List.foldl_nil, hdigit.1, Nat.zero_mul, Nat.zero_add]
  | succ fuel ih =>
    rw [toText]
    split
    · rename_i hlt
      have hdigit := digitChar_spec n (by omega)
      refine ⟨fun c hc => ⟨n, hlt, List.mem_singleton.1 hc⟩, List.cons_ne_nil _ _, by simp,
        fun hzero => congrArg (fun c => [c]) (Option.some.inj hzero), ?_⟩
      rw [List.foldl_cons, List.foldl_nil, hdigit.1, Nat.zero_mul, Nat.zero_add]
    · rename_i hge
      have hdiv : n / base < base ^ (fuel + 1) := by
        rw [Nat.div_lt_iff_lt_mul (by omega), ← pow_succ]
        exact h
      obtain ⟨hchars, hne, hlength, hhead, hvalue⟩ := ih hdiv
      have hlast := digitChar_spec (n % base) ((Nat.mod_lt n (by omega)).trans_le hle)
      refine ⟨fun c hc => ?_, List.append_ne_nil_of_left_ne_nil hne _, ?_, fun hzero => ?_, ?_⟩
      · rcases List.mem_append.1 hc with hc | hc
        · exact hchars c hc
        · exact ⟨n % base, Nat.mod_lt n (by omega), List.mem_singleton.1 hc⟩
      · rw [List.length_append, List.length_singleton]
        omega
      · -- the number in front is not 0
        rw [List.head?_append_of_ne_nil _ hne] at hzero
        have hfront := hhead hzero
        rw [hfront] at hvalue
        have hpos : 0 < n / base := Nat.div_pos (Nat.not_lt.1 hge) (by omega)
        have hnone : ['0'].foldl (fun n c => n * base + digitValue c) 0 = 0 := by
          rw [List.foldl_cons, List.foldl_nil, Nat.zero_mul]
          rfl
        omega
      · rw [List.foldl_append, hvalue, List.foldl_cons, List.foldl_nil, hlast.1, Nat.mul_comm,
          Nat.div_add_mod]

theorem isWord_toText {n : ℕ} (h : n < 65536) :
    IsWord (toText 16 4 n) ∧ parseHex (toText 16 4 n) = n := by
  obtain ⟨hchars, hne, hlength, hhead, hvalue⟩ := toText_spec (by omega) (Nat.le_refl 16) 3 h
  have hhex : ∀ c ∈ toText 16 4 n, isHex c = true := by
    intro c hc
    obtain ⟨d, hd, rfl⟩ := hchars c hc
    exact (digitChar_spec d hd).2.1
  refine ⟨⟨hhex, hne, hlength, hhead⟩, ?_⟩
  rw [parseHex, parseInt, List.takeWhile_eq_self_iff.2 hhex]
  exact hvalue

theorem toText_byte {n : ℕ} (h : n < 256) : (∀ c ∈ toText 10 3 n, c.isDigit = true) ∧
    toText 10 3 n ≠ [] ∧ (toText 10 3 n).length ≤ 3 ∧ parseDecimal (toText 10 3 n) = n := by
  obtain ⟨hchars, hne, hlength, -, hvalue⟩ := toText_spec (by omega) (by omega : 10 ≤ 16) 2
    (by omega : n < 10 ^ 3)
  have hdigits : ∀ c ∈ toText 10 3 n, c.isDigit = true := by
    intro c hc
    obtain ⟨d, hd, rfl⟩ := hchars c hc
    exact (digitChar_spec d (by omega)).2.2.2 hd
  refine ⟨hdigits, hne, hlength, ?_⟩
  rw [parseDecimal, parseInt, List.takeWhile_eq_self_iff.2 hdigits]
  exact hvalue

variable {word : Text} {ws before after : List Text} {text rest : Text}

theorem IsWord.not_mem (h : IsWord word) {c : Char} (hc : isHex c = false) : c ∉ word :=
  fun hmem => absurd ((h.hex c hmem).symm.trans hc) Bool.true_eq_false.mp

theorem IsWord.cases (h : IsWord word) :
    word = ['0'] ∨ ∃ c text, word = c :: text ∧ c ≠ '0' ∧ c ≠ ':' := by
  obtain ⟨c, text, rfl⟩ := List.exists_cons_of_ne_nil h.ne_nil
  by_cases hc : c = '0'
  · left
    exact h.zero (congrArg some hc)
  · right
    refine ⟨c, text, rfl, hc, ?_⟩
    rintro rfl
    exact h.not_mem (by decide) List.mem_cons_self

/-! ## Splitting what is joined -/

/-- Words, each behind a colon. -/
def behind (ws : List Text) : Text := ws.flatMap fun word => ':' :: word

@[simp] theorem behind_cons (word : Text) (ws : List Text) :
    behind (word :: ws) = ':' :: (word ++ behind ws) := rfl

theorem join_cons_cons (sep : Char) (word next : Text) (ws : List Text) :
    join sep (word :: next :: ws) = word ++ sep :: join sep (next :: ws) := rfl

theorem join_cons (word : Text) (ws : List Text) : join ':' (word :: ws) = word ++ behind ws := by
  induction ws generalizing word with
  | nil => exact (List.append_nil _).symm
  | cons next ws ih => rw [join_cons_cons, ih, behind_cons]

theorem split_append {sep : Char} (h : sep ∉ text) (rest : Text) :
    split sep (text ++ sep :: rest) = text :: split sep rest := by
  induction text with
  | nil => rw [List.nil_append, split, if_pos rfl]
  | cons c text ih =>
    obtain ⟨hne, hnot⟩ := not_or.1 (mt List.mem_cons.2 h)
    rw [List.cons_append, split, if_neg (Ne.symm hne), ih hnot]

theorem split_of_not_mem {sep : Char} (h : sep ∉ text) : split sep text = [text] := by
  induction text with
  | nil => rfl
  | cons c text ih =>
    obtain ⟨hne, hnot⟩ := not_or.1 (mt List.mem_cons.2 h)
    rw [split, if_neg (Ne.symm hne), ih hnot]

theorem split_join_append (h : ∀ word ∈ ws, ':' ∉ word) (hne : ws ≠ []) (rest : Text) :
    split ':' (join ':' ws ++ ':' :: rest) = ws ++ split ':' rest := by
  induction ws with
  | nil => exact absurd rfl hne
  | cons word ws ih =>
    have hword := h word List.mem_cons_self
    cases ws with
    | nil => exact split_append hword rest
    | cons next ws =>
      rw [join_cons_cons, List.append_assoc, List.cons_append, split_append hword,
        ih (List.forall_mem_cons.1 h).2 (List.cons_ne_nil _ _)]
      rfl

theorem split_join {sep : Char} (h : ∀ word ∈ ws, sep ∉ word) (hne : ws ≠ []) :
    split sep (join sep ws) = ws := by
  induction ws with
  | nil => exact absurd rfl hne
  | cons word ws ih =>
    have hword := h word List.mem_cons_self
    cases ws with
    | nil => exact split_of_not_mem hword
    | cons next ws =>
      rw [join_cons_cons, split_append hword,
        ih (List.forall_mem_cons.1 h).2 (List.cons_ne_nil _ _)]

/-! ## The run of zeros -/

/-- The words before the first run of zeros, and those behind it. -/
def firstRun : List Text → Option (List Text × List Text)
  | [] => none
  | word :: ws =>
    if word = ['0'] ∧ ws.head? = some ['0'] then some ([], ws.dropWhile fun word => word = ['0'])
    else (firstRun ws).map fun run => (word :: run.1, run.2)

/-- The colon before words, if there are any. -/
def colonBefore (ws : List Text) : Text := if ws = [] then [] else [':']

theorem zeroRun_behind (h : ∀ word ∈ ws, IsWord word) : zeroRun (behind ws) =
    if ws.head? = some ['0'] then
      some (colonBefore (ws.dropWhile fun word => word = ['0']),
        join ':' (ws.dropWhile fun word => word = ['0']))
    else none := by
  induction ws with
  | nil => rfl
  | cons word ws ih =>
    have ih := ih (List.forall_mem_cons.1 h).2
    rcases (h word List.mem_cons_self).cases with rfl | ⟨c, text, rfl, hc, -⟩
    · rw [behind_cons, List.cons_append, List.nil_append, zeroRun, ih]
      have hdrop : (['0'] :: ws).dropWhile (fun word => word = ['0']) =
          ws.dropWhile fun word => word = ['0'] := rfl
      rw [hdrop, List.head?_cons, if_pos rfl]
      by_cases hrun : ws.head? = some ['0']
      · rw [if_pos hrun, Option.some_or]
      · rw [if_neg hrun, Option.none_or]
        cases ws with
        | nil => rfl
        | cons next ws =>
          have hnext : next ≠ ['0'] := fun heq => hrun (congrArg some heq)
          rw [List.dropWhile_cons_of_neg (by simpa using hnext), join_cons]
          rfl
    · have hword : (c :: text) ≠ ['0'] := fun heq => hc (List.cons.inj heq).1
      rw [behind_cons, List.cons_append, zeroRun.eq_def, List.head?_cons,
        if_neg fun heq => hword (Option.some.inj heq)]
      split
      · rename_i heq
        exact absurd (List.cons.inj (List.cons.inj heq).2).1 hc
      · rfl

/-- What is put in place of a run, and the words behind it. -/
def gap (after : List Text) : Text := ':' :: ':' :: (colonBefore after ++ join ':' after)

theorem firstRun_of_not (h : ¬ (word = ['0'] ∧ ws.head? = some ['0'])) :
    firstRun (word :: ws) = (firstRun ws).map fun run => (word :: run.1, run.2) := by
  rw [firstRun, if_neg h]

theorem firstRun_spec {run : List Text × List Text} (h : firstRun ws = some run) :
    ∃ k, ws = run.1 ++ (List.replicate (k + 2) ['0'] ++ run.2) := by
  induction ws generalizing run with
  | nil => exact absurd h nofun
  | cons word ws ih =>
    by_cases hrun : word = ['0'] ∧ ws.head? = some ['0']
    · rw [firstRun, if_pos hrun] at h
      obtain rfl := Option.some.inj h
      obtain ⟨rfl, hhead⟩ := hrun
      obtain ⟨ws, rfl⟩ := List.head?_eq_some_iff.1 hhead
      refine ⟨(ws.takeWhile fun word => word = ['0']).length, ?_⟩
      have hzeros : ws.takeWhile (fun word => word = ['0']) =
          List.replicate (ws.takeWhile fun word => word = ['0']).length ['0'] :=
        List.eq_replicate_iff.2 ⟨rfl, fun word hmem => by simpa using List.mem_takeWhile_imp hmem⟩
      have hsplit : ws.takeWhile (fun word => word = ['0']) ++
          ws.dropWhile (fun word => word = ['0']) = ws := List.takeWhile_append_dropWhile
      rw [hzeros] at hsplit
      exact congrArg (fun ws => ['0'] :: ['0'] :: ws) hsplit.symm
    · rw [firstRun_of_not hrun] at h
      obtain ⟨run, hrun, rfl⟩ := Option.map_eq_some_iff.1 h
      obtain ⟨k, hk⟩ := ih hrun
      exact ⟨k, congrArg (word :: ·) hk⟩

theorem append_of_passes {replace : Text → Text}
    (hpass : ∀ c text, c ≠ ':' → replace (c :: text) = c :: replace text) (h : ':' ∉ text)
    (rest : Text) : replace (text ++ rest) = text ++ replace rest := by
  induction text with
  | nil => rfl
  | cons c text ih =>
    obtain ⟨hne, hnot⟩ := not_or.1 (mt List.mem_cons.2 h)
    rw [List.cons_append, hpass c _ (Ne.symm hne), ih hnot, List.cons_append]

theorem replaceZerosBehind_cons (c : Char) (text : Text) (h : c ≠ ':') :
    replaceZerosBehind (c :: text) = c :: replaceZerosBehind text := by
  rw [replaceZerosBehind.eq_def]
  split
  · rename_i heq
    exact absurd (List.cons.inj heq).1 h
  · rename_i heq
    obtain ⟨rfl, rfl⟩ := List.cons.inj heq
    rfl
  · rename_i heq
    exact absurd heq (List.cons_ne_nil _ _)

theorem replaceZerosBehind_colon {c : Char} (h : c ≠ '0') (text : Text) :
    replaceZerosBehind (':' :: c :: text) = ':' :: replaceZerosBehind (c :: text) := by
  rw [replaceZerosBehind.eq_def]
  split
  · rename_i heq
    exact absurd (List.cons.inj (List.cons.inj heq).2).1 h
  · rename_i heq
    obtain ⟨rfl, rfl⟩ := List.cons.inj heq
    rfl
  · rename_i heq
    exact absurd heq (List.cons_ne_nil _ _)

theorem replaceZerosBehind_behind (h : ∀ word ∈ ws, IsWord word) :
    replaceZerosBehind (behind ws) =
      (firstRun ws).elim (behind ws) fun run => behind run.1 ++ ':' :: gap run.2 := by
  induction ws with
  | nil => rfl
  | cons word ws ih =>
    have hrest := (List.forall_mem_cons.1 h).2
    have ih := ih hrest
    by_cases hrun : word = ['0'] ∧ ws.head? = some ['0']
    · obtain ⟨rfl, hhead⟩ := hrun
      rw [behind_cons, List.cons_append, List.nil_append, replaceZerosBehind, zeroRun_behind hrest,
        if_pos hhead, firstRun, if_pos ⟨rfl, hhead⟩]
      exact List.append_assoc _ _ _
    · have hbehind : replaceZerosBehind (':' :: (word ++ behind ws)) =
          ':' :: (word ++ replaceZerosBehind (behind ws)) := by
        rcases (h word List.mem_cons_self).cases with rfl | ⟨c, text, rfl, hc, -⟩
        · have hhead : ¬ ws.head? = some ['0'] := fun hhead => hrun ⟨rfl, hhead⟩
          rw [List.cons_append, List.nil_append, replaceZerosBehind, zeroRun_behind hrest,
            if_neg hhead]
          rfl
        · rw [List.cons_append, replaceZerosBehind_colon hc, ← List.cons_append,
            append_of_passes replaceZerosBehind_cons ((h _ List.mem_cons_self).not_mem (by decide))]
      rw [behind_cons, hbehind, ih, firstRun_of_not hrun]
      cases firstRun ws with
      | none => rfl
      | some run =>
        rw [Option.map_some, Option.elim_some, Option.elim_some, behind_cons, List.cons_append,
          List.append_assoc]

theorem replaceZerosBehind_replaceZeros (text : Text) :
    replaceZerosBehind (':' :: text) = ':' :: replaceZeros text := by
  rw [replaceZeros.eq_def]
  split
  · rw [replaceZerosBehind]
    split
    · rfl
    · rfl
  · rename_i hne
    cases text with
    | nil => rfl
    | cons c text => exact replaceZerosBehind_colon (fun hc => hne text (hc ▸ rfl)) text

theorem replaceZeros_join (h : ∀ word ∈ ws, IsWord word) : replaceZeros (join ':' ws) =
    (firstRun ws).elim (join ':' ws) fun run =>
      join ':' run.1 ++ (colonBefore run.1 ++ gap run.2) := by
  cases ws with
  | nil => rfl
  | cons word ws =>
    have hbehind := replaceZerosBehind_behind h
    rw [behind_cons, ← join_cons, replaceZerosBehind_replaceZeros] at hbehind
    refine (List.cons_inj_right ':').1 (hbehind.trans ?_)
    cases firstRun (word :: ws) with
    | none => rfl
    | some run =>
      rcases run with ⟨_ | ⟨next, before⟩, after⟩
      · rfl
      · rw [Option.elim_some, Option.elim_some, behind_cons, ← join_cons]
        rfl

theorem replaceColons_cons (c : Char) (text : Text) (h : c ≠ ':') :
    replaceColons (c :: text) = c :: replaceColons text := by
  rw [replaceColons.eq_def]
  split
  · rename_i heq
    exact absurd (List.cons.inj heq).1 h
  · rename_i heq
    exact absurd (List.cons.inj heq).1 h
  · rename_i heq
    obtain ⟨rfl, rfl⟩ := List.cons.inj heq
    rfl
  · rename_i heq
    exact absurd heq (List.cons_ne_nil _ _)

theorem replaceColons_colon {c : Char} (h : c ≠ ':') (text : Text) :
    replaceColons (':' :: c :: text) = ':' :: replaceColons (c :: text) := by
  rw [replaceColons.eq_def]
  split
  · rename_i heq
    exact absurd (List.cons.inj (List.cons.inj heq).2).1 h
  · rename_i heq
    exact absurd (List.cons.inj (List.cons.inj heq).2).1 h
  · rename_i heq
    obtain ⟨rfl, rfl⟩ := List.cons.inj heq
    rfl
  · rename_i heq
    exact absurd heq (List.cons_ne_nil _ _)

theorem IsWord.exists_cons (h : IsWord word) : ∃ c text, word = c :: text ∧ c ≠ ':' := by
  rcases h.cases with rfl | ⟨c, text, rfl, -, hc⟩
  · exact ⟨'0', [], rfl, by decide⟩
  · exact ⟨c, text, rfl, hc⟩

theorem replaceColons_join (h : ∀ word ∈ ws, IsWord word) (rest : Text) :
    replaceColons (join ':' ws ++ rest) = join ':' ws ++ replaceColons rest := by
  have hbehind : ∀ ws : List Text, (∀ word ∈ ws, IsWord word) →
      replaceColons (behind ws ++ rest) = behind ws ++ replaceColons rest := by
    intro ws h
    induction ws with
    | nil => rfl
    | cons word ws ih =>
      have hword := h word List.mem_cons_self
      obtain ⟨c, text, rfl, hc⟩ := hword.exists_cons
      rw [behind_cons, List.cons_append, List.cons_append, List.cons_append,
        replaceColons_colon hc, ← List.cons_append, ← List.cons_append, List.append_assoc,
        append_of_passes replaceColons_cons (hword.not_mem (by decide)),
        ih (List.forall_mem_cons.1 h).2]
      exact congrArg (fun t => ':' :: c :: t) (List.append_assoc text (behind ws) _).symm
  cases ws with
  | nil => rfl
  | cons word ws =>
    rw [join_cons, List.append_assoc,
      append_of_passes replaceColons_cons ((h word List.mem_cons_self).not_mem (by decide)),
      hbehind ws (List.forall_mem_cons.1 h).2, List.append_assoc]

theorem replaceColons_gap (h : ∀ word ∈ after, IsWord word) (before : List Text) :
    replaceColons (colonBefore before ++ gap after) = ':' :: ':' :: join ':' after := by
  cases after with
  | nil =>
    rw [gap, colonBefore, colonBefore, if_pos rfl]
    split <;> rfl
  | cons word ws =>
    obtain ⟨c, text, hword, hc⟩ := (h word List.mem_cons_self).exists_cons
    rw [gap, colonBefore, colonBefore, if_neg (List.cons_ne_nil _ _), join_cons, hword]
    split
    · rw [List.nil_append, List.singleton_append, replaceColons.eq_def]
      split
      · rename_i heq
        have hcolon := (List.cons.inj (List.cons.inj (List.cons.inj (List.cons.inj heq).2).2).2).1
        exact absurd hcolon hc
      · rename_i heq
        exact congrArg (fun text => ':' :: ':' :: text)
          (List.cons.inj (List.cons.inj (List.cons.inj heq).2).2).2.symm
      · rename_i hthree heq
        obtain ⟨rfl, rfl⟩ := List.cons.inj heq
        exact absurd rfl (hthree _ rfl)
      · rename_i heq
        exact absurd heq (List.cons_ne_nil _ _)
    · rfl

theorem ipText (h : ∀ word ∈ ws, IsWord word) : replaceColons (replaceZeros (join ':' ws)) =
    (firstRun ws).elim (join ':' ws) fun run =>
      join ':' run.1 ++ ':' :: ':' :: join ':' run.2 := by
  rw [replaceZeros_join h]
  cases hrun : firstRun ws with
  | none =>
    have hjoin := replaceColons_join h []
    rwa [List.append_nil, show replaceColons [] = [] from rfl, List.append_nil] at hjoin
  | some run =>
    obtain ⟨k, rfl⟩ := firstRun_spec hrun
    rw [Option.elim_some, Option.elim_some,
      replaceColons_join fun word hmem => h word (List.mem_append_left _ hmem),
      replaceColons_gap fun word hmem =>
        h word (List.mem_append_right _ (List.mem_append_right _ hmem))]

/-! ## The expressions hold of it -/

theorem mem_upToChars_self (p : Char → Bool) (n : ℕ) (text : Text) : text ∈ upToChars p n text := by
  induction n generalizing text with
  | zero => exact List.mem_singleton_self _
  | succ n ih =>
    cases text with
    | nil => exact List.mem_singleton_self _
    | cons c text =>
      rw [upToChars]
      split
      · exact List.mem_append_right _ (List.mem_singleton_self _)
      · exact List.mem_singleton_self _

theorem mem_upToChars {p : Char → Bool} {n : ℕ} (h : ∀ c ∈ text, p c = true)
    (hlength : text.length ≤ n) (rest : Text) : rest ∈ upToChars p n (text ++ rest) := by
  induction text generalizing n with
  | nil => exact mem_upToChars_self p n rest
  | cons c text ih =>
    obtain ⟨n, rfl⟩ : ∃ m, n = m + 1 := Nat.exists_eq_succ_of_ne_zero (by
      rw [List.length_cons] at hlength
      omega)
    rw [List.cons_append, upToChars, if_pos (h c List.mem_cons_self)]
    exact List.mem_append_left _ (ih (List.forall_mem_cons.1 h).2
      (Nat.le_of_succ_le_succ hlength))

theorem mem_group (h : ∀ c ∈ word, isHex c = true) (hlength : word.length ≤ 4) {k : ℕ} (hk : k ≤ 2)
    (rest : Text) : rest ∈ group (word ++ (List.replicate k ':' ++ rest)) := by
  refine List.mem_flatMap.2 ⟨List.replicate k ':' ++ rest, List.mem_flatMap.2
    ⟨word ++ (List.replicate k ':' ++ rest), List.mem_append_right _ (List.mem_singleton_self _),
      mem_upToChars h hlength _⟩, mem_upToChars ?_ ?_ rest⟩
  · intro c hc
    rw [List.eq_of_mem_replicate hc]
    rfl
  · rwa [List.length_replicate]

theorem mem_upToGroups_self (n : ℕ) (text : Text) : text ∈ upToGroups n text := by
  cases n with
  | zero => exact List.mem_singleton_self _
  | succ n => exact List.mem_append_right _ (List.mem_singleton_self _)

theorem mem_upToGroups_succ {n : ℕ} {next : Text} (hgroup : next ∈ group text)
    (h : rest ∈ upToGroups n next) : rest ∈ upToGroups (n + 1) text :=
  List.mem_append_left _ (List.mem_flatMap.2 ⟨next, hgroup, h⟩)

theorem mem_upToGroups_mono {n : ℕ} (h : rest ∈ upToGroups n text) :
    rest ∈ upToGroups (n + 1) text := by
  induction n generalizing text with
  | zero =>
    rw [List.mem_singleton.1 h]
    exact mem_upToGroups_self 1 text
  | succ n ih =>
    rcases List.mem_append.1 h with h | h
    · obtain ⟨next, hgroup, hnext⟩ := List.mem_flatMap.1 h
      exact mem_upToGroups_succ hgroup (ih hnext)
    · rw [List.mem_singleton.1 h]
      exact mem_upToGroups_self _ text

theorem mem_upToGroups_join {n : ℕ} (h : ∀ word ∈ ws, IsWord word) (hlength : ws.length ≤ n) :
    [] ∈ upToGroups n (join ':' ws) := by
  induction ws generalizing n with
  | nil => exact mem_upToGroups_self n []
  | cons word ws ih =>
    obtain ⟨n, rfl⟩ : ∃ m, n = m + 1 := Nat.exists_eq_succ_of_ne_zero (by
      rw [List.length_cons] at hlength
      omega)
    have hword := h word List.mem_cons_self
    have hrest := ih (List.forall_mem_cons.1 h).2
      (Nat.le_of_succ_le_succ hlength)
    cases ws with
    | nil =>
      have hmem := mem_group hword.hex hword.length (Nat.zero_le 2) []
      rw [List.append_nil, List.replicate_zero, List.append_nil] at hmem
      exact mem_upToGroups_succ hmem hrest
    | cons next ws =>
      exact mem_upToGroups_succ (mem_group hword.hex hword.length (by omega : 1 ≤ 2) _) hrest

/-- Words and the two colons of a gap are groups, and one more where there is no word. -/
theorem mem_upToGroups_gap {n : ℕ} (h : ∀ word ∈ before, IsWord word)
    (hrest : rest ∈ upToGroups n text) :
    rest ∈ upToGroups (before.length + 1 + n) (join ':' before ++ ':' :: ':' :: text) := by
  induction before with
  | nil =>
    -- the two colons are a group of their own
    rw [List.length_nil, Nat.zero_add, Nat.add_comm]
    have hmem : text ∈ group (':' :: ':' :: text) :=
      mem_group (fun c hc => absurd hc List.not_mem_nil) (Nat.zero_le 4) (Nat.le_refl 2) text
    exact mem_upToGroups_succ hmem hrest
  | cons word ws ih =>
    have hword := h word List.mem_cons_self
    have ih := ih (List.forall_mem_cons.1 h).2
    rw [List.length_cons, show ws.length + 1 + 1 + n = ws.length + 1 + n + 1 by omega]
    cases ws with
    | nil =>
      rw [List.length_nil, Nat.zero_add, Nat.add_comm 1 n]
      exact mem_upToGroups_succ (mem_group hword.hex hword.length (Nat.le_refl 2) text)
        (mem_upToGroups_mono hrest)
    | cons next ws =>
      rw [join_cons_cons, List.append_assoc]
      exact mem_upToGroups_succ (mem_group hword.hex hword.length (by omega : 1 ≤ 2) _) ih

theorem isV6Format_of_mem (hne : text ≠ []) (h : [] ∈ upToGroups 8 text) :
    isV6Format text = true := by
  have hself : ∀ text, text ∈ twoColons text := by
    intro text
    unfold twoColons
    split
    · exact List.mem_cons_of_mem _ (List.mem_singleton_self _)
    · exact List.mem_singleton_self _
  rcases List.mem_append.1 h with h | h
  · exact List.any_eq_true.2 ⟨[], List.mem_flatMap.2
      ⟨[], List.mem_flatMap.2 ⟨text, hself text, h⟩, hself []⟩, rfl⟩
  · exact absurd (List.mem_singleton.1 h).symm hne

theorem isV4Format_of_not_mem (h : '.' ∉ text) : isV4Format text = false := by
  rw [isV4Format, split_of_not_mem h]
  rfl

theorem expandV4_of_not_mem (h : ∀ text ∈ ws, '.' ∉ text) (i : ℕ) : expandV4 i ws = ws := by
  induction ws generalizing i with
  | nil => rfl
  | cons text ws ih =>
    rw [expandV4, isV4Format_of_not_mem (h text List.mem_cons_self), if_neg Bool.false_ne_true,
      ih (List.forall_mem_cons.1 h).2]

theorem not_mem_join {c : Char} (hc : isHex c = false) (hne : c ≠ ':')
    (h : ∀ word ∈ ws, IsWord word) : c ∉ join ':' ws := by
  induction ws with
  | nil => exact List.not_mem_nil
  | cons word ws ih =>
    have hword := (h word List.mem_cons_self).not_mem hc
    have ih := ih (List.forall_mem_cons.1 h).2
    cases ws with
    | nil => exact hword
    | cons next ws =>
      rw [join_cons_cons, List.mem_append, List.mem_cons, not_or, not_or]
      exact ⟨hword, hne, ih⟩

/-! ## The zeros are put back -/

/-- The words where a run is left out. -/
def sectionsOf (before after : List Text) : List Text :=
  (if before = [] then [[]] else before) ++ [] :: if after = [] then [[]] else after

theorem mem_sectionsOf (h : text ∈ sectionsOf before after) :
    text = [] ∨ text ∈ before ∨ text ∈ after := by
  by_cases hb : before = [] <;> by_cases ha : after = [] <;> simp [sectionsOf, hb, ha] at h ⊢ <;>
    tauto

theorem split_gap (hbefore : ∀ word ∈ before, IsWord word) (hafter : ∀ word ∈ after, IsWord word) :
    split ':' (join ':' before ++ ':' :: ':' :: join ':' after) = sectionsOf before after := by
  have hcolon : ∀ ws : List Text, (∀ word ∈ ws, IsWord word) → ∀ word ∈ ws, ':' ∉ word :=
    fun ws h word hmem => (h word hmem).not_mem (by decide)
  have hsecond : split ':' (':' :: join ':' after) =
      [] :: if after = [] then [[]] else after := by
    rw [split, if_pos rfl]
    split
    · rename_i hnil
      rw [hnil]
      rfl
    · rename_i hne
      rw [split_join (hcolon after hafter) hne]
  by_cases hnil : before = []
  · rw [hnil, join, List.nil_append, split, if_pos rfl, hsecond, sectionsOf, if_pos rfl]
    rfl
  · rw [split_join_append (hcolon before hbefore) hnil, hsecond, sectionsOf, if_neg hnil]

theorem fillZeros_of_words (h : ∀ word ∈ ws, IsWord word) (hlength : ws.length = 8) :
    fillZeros ws = ws := by
  have hnil : ∀ section_ ∈ ws, section_ ≠ [] := fun word hmem => (h word hmem).ne_nil
  rw [fillZeros, if_neg fun hhead => hnil _ (List.mem_of_head? hhead) rfl,
    if_neg fun hlast => hnil _ (List.mem_of_getLast? hlast) rfl, if_neg (by omega)]

theorem parseHex_fillZeros (hbefore : ∀ word ∈ before, IsWord word)
    (hafter : ∀ word ∈ after, IsWord word) {k : ℕ}
    (hlength : before.length + (k + 2 + after.length) = 8) :
    (fillZeros (sectionsOf before after)).map parseHex =
      (before ++ (List.replicate (k + 2) ['0'] ++ after)).map parseHex := by
  have hnil : ∀ ws : List Text, (∀ word ∈ ws, IsWord word) → [] ∉ ws :=
    fun ws h hmem => (h [] hmem).ne_nil rfl
  rw [List.map_append, List.map_append, List.map_replicate, sectionsOf]
  -- an empty section is read as a zero of the run
  by_cases hb : before = []
  · subst hb
    rw [if_pos rfl, List.singleton_append, fillZeros, List.head?_cons, if_pos rfl]
    by_cases ha : after = []
    · subst ha
      obtain rfl : k = 6 := by
        rw [List.length_nil] at hlength
        omega
      decide
    · rw [if_neg ha, List.map_append, List.map_replicate]
      have hzeros : 8 - ([] :: [] :: after : List Text).length = k := by
        simp only [List.length_nil, List.length_cons] at hlength ⊢
        omega
      rw [hzeros, List.replicate_add, List.append_assoc]
      rfl
  · rw [if_neg hb]
    have hhead : (before ++ [] :: if after = [] then [[]] else after).head? ≠ some [] := by
      rw [List.head?_append_of_ne_nil _ hb]
      exact fun hhead => hnil before hbefore (List.mem_of_head? hhead)
    rw [fillZeros, if_neg hhead]
    by_cases ha : after = []
    · subst ha
      have hzeros : 8 - (before ++ [[], []]).length = k := by
        simp only [List.length_nil, List.length_append, List.length_cons] at hlength ⊢
        omega
      rw [if_pos rfl, hzeros, if_pos (by simp), List.map_append, List.map_append,
        List.append_assoc, List.map_replicate, Nat.add_comm k, List.replicate_add, List.map_nil,
        List.append_nil]
      rfl
    · have hlast : (before ++ [] :: after).getLast? ≠ some [] := by
        rw [List.getLast?_append_of_ne_nil _ (List.cons_ne_nil _ _),
          List.getLast?_cons_of_ne_nil ha]
        exact fun hlast => hnil after hafter (List.mem_of_getLast? hlast)
      have hlen : (before ++ [] :: after).length = 8 - k - 1 := by
        rw [List.length_append, List.length_cons]
        omega
      have hidx : (before ++ [] :: after).idxOf [] = before.length := by
        rw [List.idxOf_append_of_notMem (hnil before hbefore), List.idxOf_cons_self, Nat.add_zero]
      rw [if_neg ha, if_neg hlast, if_pos (by omega), hidx, hlen,
        show 9 - (8 - k - 1) = k + 2 by omega]
      change ((before ++ [] :: after).take before.length ++ _ ++ _).map parseHex = _
      rw [List.take_left, List.map_append, List.map_append, List.map_replicate, List.append_assoc]
      congr 2
      rw [← List.singleton_append, ← List.append_assoc]
      exact congrArg _ (List.drop_left' (by rw [List.length_append, List.length_singleton]))

/-! ## Every address comes back -/

theorem words_spec (bytes : Bytes) : (words bytes).length = bytes.length / 2 ∧
    (∀ word ∈ words bytes, word < 65536) ∧
    (bytes.length % 2 = 0 → (words bytes).flatMap wordBytes = bytes) := by
  induction bytes using words.induct with
  | case1 a b bytes ih =>
    obtain ⟨hlength, hlt, hback⟩ := ih
    have ha := a.toNat_lt
    have hb := b.toNat_lt
    refine ⟨?_, ?_, fun heven => ?_⟩
    · rw [words, List.length_cons, List.length_cons, List.length_cons, hlength]
      omega
    · intro word hmem
      rcases List.mem_cons.1 hmem with rfl | hmem
      · omega
      · exact hlt word hmem
    · have hhigh : UInt8.ofNat ((a.toNat * 256 + b.toNat) / 256) = a := by
        rw [show (a.toNat * 256 + b.toNat) / 256 = a.toNat by omega, UInt8.ofNat_toNat]
      have hlow : UInt8.ofNat (a.toNat * 256 + b.toNat) = b := by
        apply UInt8.toNat_inj.1
        rw [UInt8.toNat_ofNat']
        omega
      rw [List.length_cons, List.length_cons] at heven
      rw [words, List.flatMap_cons, hback (by omega), wordBytes, hhigh, hlow]
      rfl
  | case2 bytes hshort =>
    rcases bytes with _ | ⟨a, _ | ⟨b, bytes⟩⟩
    · exact ⟨rfl, nofun, fun _ => rfl⟩
    · exact ⟨by simp [words], by simp [words], fun heven => absurd heven Nat.one_ne_zero⟩
    · exact absurd rfl (hshort a b bytes)

theorem isWord_words {bytes : Bytes} : ∀ word ∈ (words bytes).map (toText 16 4), IsWord word := by
  intro word hmem
  obtain ⟨n, hn, rfl⟩ := List.mem_map.1 hmem
  exact (isWord_toText ((words_spec bytes).2.1 n hn)).1

theorem length_map_words {bytes : Bytes} (h : bytes.length = 16) :
    ((words bytes).map (toText 16 4)).length = 8 := by
  rw [List.length_map, (words_spec bytes).1, h]

theorem ipText_spec (h : ∀ word ∈ ws, IsWord word) (hlength : ws.length = 8) {ip : Text}
    (hip : replaceColons (replaceZeros (join ':' ws)) = ip) :
    isV4Format ip = false ∧ isV6Format ip = true ∧
      (fillZeros (expandV4 0 ((split ':' ip).take 8))).map parseHex = ws.map parseHex := by
  rw [ipText h] at hip
  have hpoint : ∀ ws : List Text, (∀ word ∈ ws, IsWord word) → ∀ word ∈ ws, '.' ∉ word :=
    fun ws h word hmem => (h word hmem).not_mem (by decide)
  cases hrun : firstRun ws with
  | none =>
    rw [hrun, Option.elim_none] at hip
    subst hip
    have hne : ws ≠ [] := List.ne_nil_of_length_eq_add_one hlength
    have hjoin : join ':' ws ≠ [] := by
      obtain ⟨word, ws, rfl⟩ := List.exists_cons_of_ne_nil hne
      rw [join_cons]
      exact List.append_ne_nil_of_left_ne_nil (h word List.mem_cons_self).ne_nil _
    refine ⟨isV4Format_of_not_mem (not_mem_join (by decide) (by decide) h),
      isV6Format_of_mem hjoin (mem_upToGroups_join h hlength.le), ?_⟩
    rw [split_join (fun word hmem => (h word hmem).not_mem (by decide)) hne,
      List.take_of_length_le hlength.le, expandV4_of_not_mem (hpoint ws h),
      fillZeros_of_words h hlength]
  | some run =>
    rw [hrun, Option.elim_some] at hip
    subst hip
    obtain ⟨k, hws⟩ := firstRun_spec hrun
    have hbefore : ∀ word ∈ run.1, IsWord word := fun word hmem =>
      h word (hws ▸ List.mem_append_left _ hmem)
    have hafter : ∀ word ∈ run.2, IsWord word := fun word hmem =>
      h word (hws ▸ List.mem_append_right _ (List.mem_append_right _ hmem))
    have hcount : run.1.length + (k + 2 + run.2.length) = 8 := by
      rw [← hlength, hws, List.length_append, List.length_append, List.length_replicate]
    refine ⟨isV4Format_of_not_mem ?_, isV6Format_of_mem ?_ ?_, ?_⟩
    · rw [List.mem_append, List.mem_cons, List.mem_cons, not_or, not_or, not_or]
      exact ⟨not_mem_join (by decide) (by decide) hbefore, by decide, by decide,
        not_mem_join (by decide) (by decide) hafter⟩
    · exact List.append_ne_nil_of_right_ne_nil _ (List.cons_ne_nil _ _)
    · have hgroups : run.2.length ≤ 7 - run.1.length := by omega
      have hmem := mem_upToGroups_gap hbefore (mem_upToGroups_join hafter hgroups)
      rwa [show run.1.length + 1 + (7 - run.1.length) = 8 by omega] at hmem
    · have hsections : (sectionsOf run.1 run.2).length ≤ 8 := by
        rw [sectionsOf, List.length_append, List.length_cons]
        by_cases hb : run.1 = [] <;> by_cases ha : run.2 = [] <;>
          simp only [hb, ha, if_true, if_false, List.length_cons, List.length_nil] at hcount ⊢ <;>
          omega
      have hnone : ∀ text ∈ sectionsOf run.1 run.2, '.' ∉ text := by
        intro text hmem
        rcases mem_sectionsOf hmem with rfl | hmem | hmem
        · exact List.not_mem_nil
        · exact hpoint _ hbefore text hmem
        · exact hpoint _ hafter text hmem
      rw [split_gap hbefore hafter, List.take_of_length_le hsections, expandV4_of_not_mem hnone,
        parseHex_fillZeros hbefore hafter hcount, hws]

theorem v4Text_spec {bytes : Bytes} (hlength : bytes.length = 4) {ip : Text}
    (hip : join '.' (bytes.map fun byte => toText 10 3 byte.toNat) = ip) :
    isV4Format ip = true ∧ v4Bytes ip = bytes := by
  have hspec := fun byte : UInt8 => toText_byte byte.toNat_lt
  have hsplit : split '.' ip = bytes.map fun byte => toText 10 3 byte.toNat := by
    rw [← hip]
    refine split_join ?_ (List.ne_nil_of_length_eq_add_one (by rw [List.length_map, hlength]))
    intro text hmem hpoint
    obtain ⟨byte, -, rfl⟩ := List.mem_map.1 hmem
    exact absurd ((hspec byte).1 '.' hpoint) (by decide)
  constructor
  · rw [isV4Format, hsplit, List.length_map, hlength, decide_eq_true rfl, Bool.true_and,
      List.all_map, List.all_eq_true]
    intro byte _
    obtain ⟨hdigits, hne, hle, -⟩ := hspec byte
    have hpos : 1 ≤ (toText 10 3 byte.toNat).length := List.length_pos_iff.2 hne
    rw [Function.comp_apply, decide_eq_true hpos, decide_eq_true hle, Bool.true_and, Bool.true_and]
    exact List.all_eq_true.2 hdigits
  · rw [v4Bytes, hsplit, List.map_map]
    refine (List.map_congr_left fun byte _ => ?_).trans (List.map_id bytes)
    exact (congrArg UInt8.ofNat (hspec byte).2.2.2).trans UInt8.ofNat_toNat

theorem isFormat_ipToString {bytes : Bytes} (hlength : bytes.length = 4 ∨ bytes.length = 16) :
    (isV4Format (ipToString bytes) || isV6Format (ipToString bytes)) = true := by
  rcases hlength with hlength | hlength
  · rw [ipToString, if_pos hlength, (v4Text_spec hlength rfl).1, Bool.true_or]
  · rw [ipToString, if_neg (by omega), if_pos hlength,
      (ipText_spec isWord_words (length_map_words hlength) rfl).2.1, Bool.or_true]

theorem ipToBytes_ipToString {bytes : Bytes} (hlength : bytes.length = 4 ∨ bytes.length = 16) :
    ipToBytes (ipToString bytes) = .ok bytes := by
  rcases hlength with hlength | hlength
  · obtain ⟨hformat, hbytes⟩ := v4Text_spec hlength rfl
    rw [ipToString, if_pos hlength, ipToBytes, if_pos hformat, hbytes]
  · obtain ⟨hv4, hv6, hsections⟩ := ipText_spec isWord_words (length_map_words hlength) rfl
    have hvalues : ((words bytes).map (toText 16 4)).map parseHex = words bytes := by
      rw [List.map_map]
      refine (List.map_congr_left fun word hmem => ?_).trans (List.map_id _)
      exact (isWord_toText ((words_spec bytes).2.1 word hmem)).2
    rw [ipToString, if_neg (by omega), if_pos hlength, ipToBytes, if_neg (by rw [hv4]; decide),
      if_pos hv6]
    have hbytes : (fillZeros (expandV4 0 ((split ':' (replaceColons (replaceZeros
        (join ':' ((words bytes).map (toText 16 4)))))).take 8))).flatMap
          (fun section_ => wordBytes (parseHex section_)) = bytes := by
      rw [← List.flatMap_map, hsections, hvalues]
      exact (words_spec bytes).2.2 (by rw [hlength])
    simp only [hbytes, hlength, Nat.sub_self, List.replicate_zero, List.append_nil]
    exact congrArg _ (List.take_of_length_le hlength.le)

end Kademlia

end TsEthereum
