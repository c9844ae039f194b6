import Mathlib.Algebra.Group.Nat.Defs
import Mathlib.Data.List.ModifyLast
import WireModel.Proofs.Identifier
import WireModel.Wire.Primitive

/-!
# Bytes as text

Four characters of the alphabet have as many bits as three bytes. Where one or two bytes are left
over, the last character before the padding has bits that no byte takes: two of them before one
`=`, and four before two. Reading ignores these bits and writing puts them to zero, so a text
and the text that its bytes are written as differ there and nowhere else.

* `Padded` says what a text of Base64 looks like, without groups.
* `decodeChars?_eq_some` goes through the groups: a padded text has bytes, and these are written
  as the same characters, up to the last one before the padding.
* **`Wire.bytes_coerced`** puts this together for the nodes of a document.
-/

namespace WireModel

namespace Base64

/-! ## The alphabet -/

/-- The standard alphabet. -/
def alphabet : List Char :=
  ['A', 'B', 'C', 'D', 'E', 'F', 'G', 'H', 'I', 'J', 'K', 'L', 'M', 'N', 'O', 'P', 'Q', 'R',
    'S', 'T', 'U', 'V', 'W', 'X', 'Y', 'Z',
    'a', 'b', 'c', 'd', 'e', 'f', 'g', 'h', 'i', 'j', 'k', 'l', 'm', 'n', 'o', 'p', 'q', 'r',
    's', 't', 'u', 'v', 'w', 'x', 'y', 'z',
    '0', '1', '2', '3', '4', '5', '6', '7', '8', '9',
    '+', '/']

/-- The value of a character of the alphabet is its place there. -/
def value (c : Char) : Nat := alphabet.idxOf c

theorem value_lt {c : Char} (h : c ∈ alphabet) : value c < 64 :=
  List.idxOf_lt_length_of_mem h

theorem padding_not_mem : '=' ∉ alphabet := by decide

theorem valueOf?_of_mem : ∀ c ∈ alphabet, valueOf? c = some (value c) := by
  have hall : alphabet.all (fun c => valueOf? c == some (value c)) = true := by decide +kernel
  intro c hc
  exact beq_iff_eq.mp (List.all_eq_true.mp hall c hc)

theorem charOf_value : ∀ c ∈ alphabet, charOf (value c) = c := by
  have hall : alphabet.all (fun c => charOf (value c) == c) = true := by decide +kernel
  intro c hc
  exact beq_iff_eq.mp (List.all_eq_true.mp hall c hc)

theorem valueOf?_charOf : ∀ n < 64, valueOf? (charOf n) = some n := by decide +kernel

theorem charOf_ne_padding : ∀ n < 64, charOf n ≠ '=' := by decide

/-- What is not a letter or a digit is `+` or `/`. -/
theorem mem_alphabet_of_isSome {c : Char} (h : (valueOf? c).isSome = true) : c ∈ alphabet := by
  by_cases halpha : Text.isAlphanumeric c = true
  · exact Text.of_forall_ascii (P := fun c => c ∈ alphabet) (by decide +kernel) halpha
  · simp only [Text.isAlphanumeric, Text.isLetter, Bool.or_eq_true, not_or] at halpha
    obtain ⟨⟨hlower, hupper⟩, hdigit⟩ := halpha
    rw [valueOf?, if_neg hupper, if_neg hlower, if_neg hdigit] at h
    by_cases hplus : c = '+'
    · subst hplus
      decide
    · by_cases hslash : c = '/'
      · subst hslash
        decide
      · simp [hplus, hslash] at h

theorem valueOf?_eq_some_iff {c : Char} {v : Nat} :
    valueOf? c = some v ↔ c ∈ alphabet ∧ value c = v := by
  refine ⟨fun h => ?_, fun ⟨hmem, hvalue⟩ => hvalue ▸ valueOf?_of_mem c hmem⟩
  have hmem : c ∈ alphabet := mem_alphabet_of_isSome (h ▸ rfl)
  rw [valueOf?_of_mem c hmem] at h
  exact ⟨hmem, Option.some.inj h⟩

/-! ## Groups

The bytes of a group are known by its values, and the values by the bytes. -/

section Groups

variable {p q r s : Nat}

theorem toNat_firstByte (hp : p < 64) (hq : q < 64) : (firstByte p q).toNat = p * 4 + q / 16 := by
  rw [firstByte, UInt8.toNat_ofNat']
  omega

theorem toNat_secondByte (hr : r < 64) : (secondByte q r).toNat = q % 16 * 16 + r / 4 := by
  rw [secondByte, UInt8.toNat_ofNat']
  omega

theorem toNat_thirdByte (hs : s < 64) : (thirdByte r s).toNat = r % 4 * 64 + s := by
  rw [thirdByte, UInt8.toNat_ofNat']
  omega

theorem encodeChars_one (hp : p < 64) (hq : q < 64) :
    encodeChars [firstByte p q] = [charOf p, charOf (q / 16 * 16), '=', '='] := by
  simp only [encodeChars, toNat_firstByte hp hq]
  rw [show (p * 4 + q / 16) / 4 = p by omega, show (p * 4 + q / 16) % 4 = q / 16 by omega]

theorem encodeChars_two (hp : p < 64) (hq : q < 64) (hr : r < 64) :
    encodeChars [firstByte p q, secondByte q r]
      = [charOf p, charOf q, charOf (r / 4 * 4), '='] := by
  simp only [encodeChars, toNat_firstByte hp hq, toNat_secondByte hr]
  rw [show (p * 4 + q / 16) / 4 = p by omega,
    show (p * 4 + q / 16) % 4 * 16 + (q % 16 * 16 + r / 4) / 16 = q by omega,
    show (q % 16 * 16 + r / 4) % 16 = r / 4 by omega]

theorem encodeChars_three (hp : p < 64) (hq : q < 64) (hr : r < 64) (hs : s < 64)
    (rest : List UInt8) :
    encodeChars ([firstByte p q, secondByte q r, thirdByte r s] ++ rest)
      = charOf p :: charOf q :: charOf r :: charOf s :: encodeChars rest := by
  simp only [List.cons_append, List.nil_append, encodeChars, toNat_firstByte hp hq,
    toNat_secondByte hr, toNat_thirdByte hs]
  rw [show (p * 4 + q / 16) / 4 = p by omega,
    show (p * 4 + q / 16) % 4 * 16 + (q % 16 * 16 + r / 4) / 16 = q by omega,
    show (q % 16 * 16 + r / 4) % 16 * 4 + (r % 4 * 64 + s) / 64 = r by omega,
    show (r % 4 * 64 + s) % 64 = s by omega]

end Groups

theorem fullGroup?_of_values {a b c d : Char} {p q r s : Nat} (ha : valueOf? a = some p)
    (hb : valueOf? b = some q) (hc : valueOf? c = some r) (hd : valueOf? d = some s) :
    fullGroup? a b c d = some [firstByte p q, secondByte q r, thirdByte r s] := by
  simp [fullGroup?, ha, hb, hc, hd]

/-- A group whose last character is no padding is full, also if it is the last one. -/
theorem decodeChars?_group {d : Char} (hd : d ≠ '=') (a b c : Char) (rest : List Char) :
    decodeChars? (a :: b :: c :: d :: rest)
      = (fullGroup? a b c d).bind fun group => (decodeChars? rest).map (group ++ ·) := by
  cases rest with
  | nil =>
    show lastGroup? a b c d = (fullGroup? a b c d).bind fun group => some (group ++ [])
    rw [lastGroup?, if_neg hd]
    simp
  | cons e rest =>
    rw [decodeChars?]
    · cases fullGroup? a b c d <;> cases decodeChars? (e :: rest) <;> rfl
    · simp

theorem firstByte_eq {a : UInt8} {p q : Nat} (h : p * 4 + q / 16 = a.toNat) :
    firstByte p q = a := by
  rw [firstByte, h, UInt8.ofNat_toNat]

theorem secondByte_eq {b : UInt8} {q r : Nat} (h : q % 16 * 16 + r / 4 = b.toNat) :
    secondByte q r = b := by
  rw [secondByte, h, UInt8.ofNat_toNat]

theorem thirdByte_eq {c : UInt8} {r s : Nat} (h : r % 4 * 64 + s = c.toNat) :
    thirdByte r s = c := by
  rw [thirdByte, h, UInt8.ofNat_toNat]

/-- **Reading gives back what was written.** -/
theorem decodeChars?_encodeChars (bytes : List UInt8) :
    decodeChars? (encodeChars bytes) = some bytes := by
  fun_induction encodeChars bytes with
  | case1 => rfl
  | case2 a x =>
    have hx : x < 256 := a.toNat_lt
    rw [decodeChars?, lastGroup?, if_pos rfl, if_pos rfl, valueOf?_charOf _ (by omega),
      valueOf?_charOf _ (by omega)]
    show some [firstByte _ _] = some [a]
    rw [firstByte_eq (a := a) (by omega)]
  | case3 a b x y =>
    have hx : x < 256 := a.toNat_lt
    have hy : y < 256 := b.toNat_lt
    rw [decodeChars?, lastGroup?, if_pos rfl, if_neg (charOf_ne_padding _ (by omega)),
      valueOf?_charOf _ (by omega), valueOf?_charOf _ (by omega), valueOf?_charOf _ (by omega)]
    show some [firstByte _ _, secondByte _ _] = some [a, b]
    rw [firstByte_eq (a := a) (by omega), secondByte_eq (b := b) (by omega)]
  | case4 a b c rest x y z ih =>
    have hx : x < 256 := a.toNat_lt
    have hy : y < 256 := b.toNat_lt
    have hz : z < 256 := c.toNat_lt
    rw [decodeChars?_group (charOf_ne_padding _ (by omega)),
      fullGroup?_of_values (valueOf?_charOf _ (by omega)) (valueOf?_charOf _ (by omega))
        (valueOf?_charOf _ (by omega)) (valueOf?_charOf _ (by omega)), ih]
    show some ([firstByte _ _, secondByte _ _, thirdByte _ _] ++ rest) = some (a :: b :: c :: rest)
    rw [firstByte_eq (a := a) (by omega), secondByte_eq (b := b) (by omega),
      thirdByte_eq (c := c) (by omega)]
    rfl

/-! ## Padded texts -/

/-- Characters of the alphabet, with one or two `=` behind them or none, that fill groups of four.
So one `=` follows a group of three characters, and two follow a group of two. -/
structure Padded (cs body : List Char) (pad : Nat) : Prop where
  eq_append : cs = body ++ List.replicate pad '='
  pad_le : pad ≤ 2
  alphabetic : ∀ c ∈ body, c ∈ alphabet
  length_mod : cs.length % 4 = 0

/-- The bits of the last character before the padding that no byte takes. -/
def unusedBits (pad : Nat) (c : Char) : Nat := value c % 4 ^ pad

/-- A character with the bits that no byte takes put to zero. -/
def canonical (pad : Nat) (c : Char) : Char := charOf (value c / 4 ^ pad * 4 ^ pad)

theorem canonical_eq_iff {pad : Nat} {c : Char} (h : c ∈ alphabet) :
    canonical pad c = c ↔ unusedBits pad c = 0 := by
  have hdiv : value c / 4 ^ pad * 4 ^ pad + value c % 4 ^ pad = value c := by
    rw [Nat.mul_comm]
    exact Nat.div_add_mod _ _
  have hlt := value_lt h
  unfold canonical unusedBits
  refine ⟨fun heq => ?_, fun hzero => ?_⟩
  · have hvalue := valueOf?_charOf (value c / 4 ^ pad * 4 ^ pad) (by omega)
    rw [heq, valueOf?_of_mem c h] at hvalue
    have := Option.some.inj hvalue
    omega
  · rw [hzero, Nat.add_zero] at hdiv
    rw [hdiv, charOf_value c h]

namespace Padded

variable {cs body : List Char} {pad : Nat}

theorem length_eq (h : Padded cs body pad) : cs.length = body.length + pad := by
  rw [h.eq_append, List.length_append, List.length_replicate]

/-- There is no `=` but the padding. -/
theorem count_eq (h : Padded cs body pad) : cs.count '=' = pad := by
  have hbody : body.count '=' = 0 :=
    List.count_eq_zero.mpr fun hmem => padding_not_mem (h.alphabetic _ hmem)
  rw [h.eq_append, List.count_append, hbody, List.count_replicate_self, Nat.zero_add]

/-- A text that is all padding is empty. -/
theorem pad_eq_zero (h : Padded cs [] pad) : pad = 0 := by
  have hlength : cs.length = pad := by simpa using h.length_eq
  have hmod := h.length_mod
  have hle := h.pad_le
  omega

/-- A padded text is empty, or its first group has padding and is the last one, or it goes on after
a full group. -/
theorem cases_group (h : Padded cs body pad) :
    (cs = [] ∧ body = [] ∧ pad = 0)
      ∨ (∃ a b, cs = [a, b, '=', '='] ∧ body = [a, b] ∧ pad = 2)
      ∨ (∃ a b c, cs = [a, b, c, '='] ∧ body = [a, b, c] ∧ pad = 1)
      ∨ ∃ a b c d rest more, cs = a :: b :: c :: d :: rest ∧ body = a :: b :: c :: d :: more
          ∧ Padded rest more pad := by
  have hlength := h.length_eq
  have hmod := h.length_mod
  have hle := h.pad_le
  have heq := h.eq_append
  match body, h, hlength, heq with
  | [], h, _, heq =>
    obtain rfl := h.pad_eq_zero
    exact .inl ⟨heq, rfl, rfl⟩
  | [_], _, hlength, _ =>
    simp only [List.length_singleton] at hlength
    omega
  | [a, b], _, hlength, heq =>
    obtain rfl : pad = 2 := by
      simp only [List.length_cons, List.length_nil] at hlength
      omega
    exact .inr (.inl ⟨a, b, heq, rfl, rfl⟩)
  | [a, b, c], _, hlength, heq =>
    obtain rfl : pad = 1 := by
      simp only [List.length_cons, List.length_nil] at hlength
      omega
    exact .inr (.inr (.inl ⟨a, b, c, heq, rfl, rfl⟩))
  | a :: b :: c :: d :: more, h, hlength, heq =>
    refine .inr (.inr (.inr ⟨a, b, c, d, more ++ List.replicate pad '=', more, heq, rfl, rfl, hle,
      fun e he => h.alphabetic e (by simp [he]), ?_⟩))
    simp only [List.length_cons] at hlength
    rw [List.length_append, List.length_replicate]
    omega

end Padded

/-- What is known of the bytes of a padded text: their number, and how they are written. -/
structure Decodes (cs body : List Char) (pad : Nat) (bytes : List UInt8) : Prop where
  decode_eq : decodeChars? cs = some bytes
  length_eq : bytes.length + pad = 3 * (cs.length / 4)
  encode_eq : encodeChars bytes = body.modifyLast (canonical pad) ++ List.replicate pad '='

section Decodes

variable {a b c d : Char} (ha : a ∈ alphabet) (hb : b ∈ alphabet)

include ha hb

theorem decodes_two : Decodes [a, b, '=', '='] [a, b] 2 [firstByte (value a) (value b)] where
  decode_eq := by
    rw [decodeChars?, lastGroup?, if_pos rfl, if_pos rfl, valueOf?_of_mem a ha,
      valueOf?_of_mem b hb]
    rfl
  length_eq := by simp
  encode_eq := by
    rw [encodeChars_one (value_lt ha) (value_lt hb), charOf_value a ha]
    rfl

theorem decodes_three (hc : c ∈ alphabet) :
    Decodes [a, b, c, '='] [a, b, c] 1
      [firstByte (value a) (value b), secondByte (value b) (value c)] where
  decode_eq := by
    have hne : c ≠ '=' := fun heq => padding_not_mem (heq ▸ hc)
    rw [decodeChars?, lastGroup?, if_pos rfl, if_neg hne, valueOf?_of_mem a ha,
      valueOf?_of_mem b hb, valueOf?_of_mem c hc]
    rfl
  length_eq := by simp
  encode_eq := by
    rw [encodeChars_two (value_lt ha) (value_lt hb) (value_lt hc), charOf_value a ha,
      charOf_value b hb]
    rfl

/-- A full group before a text with bytes. -/
theorem Decodes.group {rest more : List Char} {pad : Nat} {bytes : List UInt8}
    (h : Decodes rest more pad bytes) (hc : c ∈ alphabet) (hd : d ∈ alphabet)
    (hend : more = [] → pad = 0) :
    Decodes (a :: b :: c :: d :: rest) (a :: b :: c :: d :: more) pad
      ([firstByte (value a) (value b), secondByte (value b) (value c),
        thirdByte (value c) (value d)] ++ bytes) where
  decode_eq := by
    have hne : d ≠ '=' := fun heq => padding_not_mem (heq ▸ hd)
    rw [decodeChars?_group hne, fullGroup?_of_values (valueOf?_of_mem a ha) (valueOf?_of_mem b hb)
      (valueOf?_of_mem c hc) (valueOf?_of_mem d hd), h.decode_eq]
    rfl
  length_eq := by
    have hlength := h.length_eq
    simp only [List.cons_append, List.nil_append, List.length_cons]
    omega
  encode_eq := by
    rw [encodeChars_three (value_lt ha) (value_lt hb) (value_lt hc) (value_lt hd), h.encode_eq,
      charOf_value a ha, charOf_value b hb, charOf_value c hc, charOf_value d hd]
    by_cases hmore : more = []
    · -- the group is the last one, and there is no padding behind it
      subst hmore
      obtain rfl := hend rfl
      rw [show [a, b, c, d] = [a, b, c] ++ [d] from rfl, List.modifyLast_concat,
        (canonical_eq_iff hd).mpr (Nat.mod_one _)]
      rfl
    · rw [show a :: b :: c :: d :: more = [a, b, c, d] ++ more from rfl,
        List.modifyLast_append_of_right_ne_nil _ _ _ hmore]
      rfl

end Decodes

/-- A padded text has bytes. -/
theorem Padded.exists_decodes {cs body : List Char} {pad : Nat} (h : Padded cs body pad) :
    ∃ bytes, Decodes cs body pad bytes := by
  -- the induction is on the number of characters, four of which go at a time
  induction hn : body.length using Nat.strongRecOn generalizing cs body with
  | _ n ih =>
    rcases h.cases_group with ⟨rfl, rfl, rfl⟩ | ⟨a, b, rfl, rfl, rfl⟩ | ⟨a, b, c, rfl, rfl, rfl⟩
      | ⟨a, b, c, d, rest, more, rfl, rfl, hrest⟩
    · exact ⟨[], rfl, rfl, rfl⟩
    · exact ⟨_, decodes_two (h.alphabetic a (by simp)) (h.alphabetic b (by simp))⟩
    · exact ⟨_, decodes_three (h.alphabetic a (by simp)) (h.alphabetic b (by simp))
        (h.alphabetic c (by simp))⟩
    · simp only [List.length_cons] at hn
      obtain ⟨bytes, hbytes⟩ := ih more.length (by omega) hrest rfl
      exact ⟨_, hbytes.group (h.alphabetic a (by simp)) (h.alphabetic b (by simp))
        (h.alphabetic c (by simp)) (h.alphabetic d (by simp))
        fun hmore => by subst hmore; exact hrest.pad_eq_zero⟩

/-- Only the last character before the padding is written differently, and only if it has unused
bits. -/
theorem Decodes.encode_eq_iff {cs body : List Char} {pad : Nat} {bytes : List UInt8}
    (h : Decodes cs body pad bytes) (hpadded : Padded cs body pad) :
    encodeChars bytes = cs ↔ ∀ last ∈ body.getLast?, unusedBits pad last = 0 := by
  rw [h.encode_eq, hpadded.eq_append, List.append_left_inj]
  rcases List.eq_nil_or_concat body with rfl | ⟨init, last, rfl⟩
  · simp [List.modifyLast, List.modifyLast.go]
  · have hlast : last ∈ alphabet := hpadded.alphabetic last (by simp)
    rw [List.concat_eq_append, List.modifyLast_concat, List.append_right_inj, List.singleton_inj,
      canonical_eq_iff hlast]
    simp

theorem mem_of_fullGroup? {a b c d : Char} {group : List UInt8}
    (h : fullGroup? a b c d = some group) : ∀ e ∈ [a, b, c, d], e ∈ alphabet := by
  simp only [fullGroup?, Option.bind_eq_bind, Option.bind_eq_some_iff, valueOf?_eq_some_iff] at h
  obtain ⟨-, ⟨ha, -⟩, -, ⟨hb, -⟩, -, ⟨hc, -⟩, -, ⟨hd, -⟩, -⟩ := h
  simp [ha, hb, hc, hd]

theorem padded_of_lastGroup? {a b c d : Char} {group : List UInt8}
    (h : lastGroup? a b c d = some group) : ∃ body pad, Padded [a, b, c, d] body pad := by
  unfold lastGroup? at h
  split at h
  · rename_i hd
    subst hd
    split at h
    · rename_i hc
      subst hc
      simp only [Option.bind_eq_bind, Option.bind_eq_some_iff, valueOf?_eq_some_iff] at h
      obtain ⟨-, ⟨ha, -⟩, -, ⟨hb, -⟩, -⟩ := h
      exact ⟨[a, b], 2, rfl, by decide, by simp [ha, hb], by simp⟩
    · simp only [Option.bind_eq_bind, Option.bind_eq_some_iff, valueOf?_eq_some_iff] at h
      obtain ⟨-, ⟨ha, -⟩, -, ⟨hb, -⟩, -, ⟨hc, -⟩, -⟩ := h
      exact ⟨[a, b, c], 1, rfl, by decide, by simp [ha, hb, hc], by simp⟩
  · exact ⟨[a, b, c, d], 0, rfl, by decide, mem_of_fullGroup? h, by simp⟩

/-- **Only a padded text has bytes.** -/
theorem exists_padded {cs : List Char} {bytes : List UInt8} (h : decodeChars? cs = some bytes) :
    ∃ body pad, Padded cs body pad := by
  fun_induction decodeChars? cs generalizing bytes with
  | case1 => exact ⟨[], 0, rfl, by decide, by simp, rfl⟩
  | case2 a b c d => exact padded_of_lastGroup? h
  | case3 a b c d rest _ ih =>
    simp only [Option.bind_eq_bind, Option.bind_eq_some_iff] at h
    obtain ⟨group, hgroup, more, hmore, -⟩ := h
    obtain ⟨body, pad, hrest⟩ := ih hmore
    have hmod := hrest.length_mod
    refine ⟨[a, b, c, d] ++ body, pad, ?_, hrest.pad_le, ?_, ?_⟩
    · rw [List.append_assoc, ← hrest.eq_append]
      rfl
    · intro e he
      rcases List.mem_append.mp he with hgroupMem | hbody
      · exact mem_of_fullGroup? hgroup e hgroupMem
      · exact hrest.alphabetic e hbody
    · simp only [List.length_cons]
      omega
  | case4 => cases h

end Base64

namespace Wire

open Base64

theorem parseBytes_eq_ok_iff {s : String} {bytes : List UInt8} :
    parseBytes (some (.text s)) = .ok bytes ↔ decodeChars? s.toList = some bytes := by
  cases hdecode : decodeChars? s.toList with
  | none => simp [parseBytes, decode?, hdecode, fail]
  | some decoded => simp [parseBytes, decode?, hdecode]

/-- **Reading and writing bytes are inverse, and reading is strict.** What is written is read back.
A text is read iff it is padded; then the number of its bytes is known, and they are written as
the text itself iff the last character before the padding has no unused bits, and otherwise
as a text with another character in that place. -/
theorem bytes_coerced :
    (∀ bytes, parseBytes (some (.text (writeBytes bytes))) = .ok bytes)
      ∧ (∀ s, (∃ bytes, parseBytes (some (.text s)) = .ok bytes)
        ↔ ∃ body pad, Padded s.toList body pad)
      ∧ ∀ s body pad bytes, Padded s.toList body pad → parseBytes (some (.text s)) = .ok bytes →
        bytes.length = 3 * s.length / 4 - s.toList.count '='
          ∧ (writeBytes bytes = s ↔ ∀ last ∈ body.getLast?, unusedBits pad last = 0)
          ∧ ∀ init last, body = init ++ [last] → unusedBits pad last ≠ 0 →
            ∃ other ≠ last,
              (writeBytes bytes).toList = init ++ other :: List.replicate pad '=' := by
  refine ⟨fun bytes => ?_, fun s => ⟨fun ⟨bytes, hparse⟩ => ?_, fun ⟨body, pad, hpadded⟩ => ?_⟩,
    fun s body pad bytes hpadded hparse => ?_⟩
  · rw [parseBytes_eq_ok_iff, writeBytes, encode, String.toList_ofList]
    exact decodeChars?_encodeChars bytes
  · exact exists_padded (parseBytes_eq_ok_iff.mp hparse)
  · obtain ⟨bytes, hbytes⟩ := hpadded.exists_decodes
    exact ⟨bytes, parseBytes_eq_ok_iff.mpr hbytes.decode_eq⟩
  · obtain ⟨bytes', hbytes⟩ := hpadded.exists_decodes
    obtain rfl : bytes' = bytes := by
      have hdecode := parseBytes_eq_ok_iff.mp hparse
      rw [hbytes.decode_eq] at hdecode
      exact Option.some.inj hdecode
    refine ⟨?_, ?_, ?_⟩
    · have hlength := hbytes.length_eq
      have hmod := hpadded.length_mod
      rw [String.length_toList] at hlength hmod
      rw [hpadded.count_eq]
      omega
    · rw [← hbytes.encode_eq_iff hpadded, ← String.toList_inj, writeBytes, encode,
        String.toList_ofList]
    · rintro init last rfl hunused
      have hlast : last ∈ alphabet := hpadded.alphabetic last (by simp)
      refine ⟨canonical pad last, fun heq => hunused ((canonical_eq_iff hlast).mp heq), ?_⟩
      rw [writeBytes, encode, String.toList_ofList, hbytes.encode_eq, List.modifyLast_concat,
        List.append_assoc]
      rfl

/-- The last character of `QR==` stands for 17, of which a byte takes the upper two bits. -/
theorem bytes_coerced_unused :
    Padded "QR==".toList ['Q', 'R'] 2 ∧ unusedBits 2 'R' = 1
      ∧ ∃ bytes, parseBytes (some (.text "QR==")) = .ok bytes ∧ bytes.length = 1
        ∧ writeBytes bytes ≠ "QR=="
        ∧ ∃ other ≠ 'R', (writeBytes bytes).toList = 'Q' :: other :: ['=', '='] := by
  have halphabetic : ∀ c ∈ ['Q', 'R'], c ∈ alphabet := by
    intro c hc
    rcases List.mem_pair.mp hc with rfl | rfl <;> decide
  have hpadded : Padded "QR==".toList ['Q', 'R'] 2 := ⟨by decide, by decide, halphabetic, by decide⟩
  have hunused : unusedBits 2 'R' = 1 := by decide +kernel
  obtain ⟨-, hiff, hforms⟩ := bytes_coerced
  obtain ⟨bytes, hparse⟩ := (hiff "QR==").mpr ⟨_, _, hpadded⟩
  obtain ⟨hlength, hsame, hother⟩ := hforms _ _ _ bytes hpadded hparse
  refine ⟨hpadded, hunused, bytes, hparse, hlength.trans (by decide), ?_, ?_⟩
  · rw [Ne, hsame]
    simp [hunused]
  · exact hother ['Q'] 'R' rfl (by rw [hunused]; decide)

end Wire
end WireModel
