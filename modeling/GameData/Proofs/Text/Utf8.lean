import Mathlib
import GameData.Text.Utf8

/-!
Texts and the bytes that spell them.

`Sequence used code` are the well-formed sequences with their code points; they are what `next` accepts and what a
character is spelled with. So `decode` accepts exactly the bytes of texts and gives the text back, and a text has as
many bytes as characters when it is ASCII.
-/
namespace GameData.Utf8

def Tail (b : UInt8) : Prop := 0x80 ≤ b.toNat ∧ b.toNat ≤ 0xbf

/-- The well-formed sequences of bytes and the code points they stand for. -/
inductive Sequence : Bytes → Nat → Prop
  | one (a : UInt8) (ascii : a.toNat < 0x80) : Sequence [a] a.toNat
  | two (a b : UInt8) (low : 0xc2 ≤ a.toNat) (high : a.toNat < 0xe0) (second : Tail b) :
      Sequence [a, b] (a.toNat % 32 * 64 + b.toNat % 64)
  | three (a b c : UInt8) (low : 0xe0 ≤ a.toNat) (high : a.toNat < 0xf0) (second : Tail b)
      (shortest : a.toNat = 0xe0 → 0xa0 ≤ b.toNat) (scalar : a.toNat = 0xed → b.toNat ≤ 0x9f) (third : Tail c) :
      Sequence [a, b, c] ((a.toNat % 16 * 64 + b.toNat % 64) * 64 + c.toNat % 64)
  | four (a b c d : UInt8) (low : 0xf0 ≤ a.toNat) (high : a.toNat ≤ 0xf4) (second : Tail b)
      (shortest : a.toNat = 0xf0 → 0x90 ≤ b.toNat) (scalar : a.toNat = 0xf4 → b.toNat ≤ 0x8f) (third : Tail c)
      (fourth : Tail d) :
      Sequence [a, b, c, d] (((a.toNat % 8 * 64 + b.toNat % 64) * 64 + c.toNat % 64) * 64 + d.toNat % 64)

theorem continuation_succ_eq_ok {need low high code : Nat} {used rest : Bytes} {r : Nat × Bytes} :
    continuation (need + 1) low high code used rest = .ok r ↔ ∃ b more, rest = b :: more ∧ low ≤ b.toNat ∧
      b.toNat ≤ high ∧ continuation need 0x80 0xbf (code * 64 + b.toNat % 64) (used ++ [b]) more = .ok r := by
  cases rest with
  | nil => simp [continuation]
  | cons b more =>
      simp only [continuation]
      constructor
      · intro h
        split at h
        case isTrue inside => exact ⟨b, more, rfl, inside.1, inside.2, h⟩
        case isFalse => cases h
      · rintro ⟨_, _, same, atLeast, atMost, h⟩
        cases same
        rw [if_pos ⟨atLeast, atMost⟩]
        exact h

theorem continuation_zero_eq_ok {low high code : Nat} {used rest : Bytes} {r : Nat × Bytes} :
    continuation 0 low high code used rest = .ok r ↔ (code, rest) = r := by
  simp [continuation]

section Next

variable {a : UInt8} (rest : Bytes)

theorem next_one (ascii : a.toNat < 0x80) : next a rest = .ok (a.toNat, rest) := by
  rw [next, if_pos ascii]

theorem next_two (low : 0xc2 ≤ a.toNat) (high : a.toNat < 0xe0) :
    next a rest = continuation 1 0x80 0xbf (a.toNat % 32) [a] rest := by
  rw [next, lead, if_neg (by omega), if_neg (by omega), if_pos (by omega)]
  rfl

theorem next_three (low : 0xe0 ≤ a.toNat) (high : a.toNat < 0xf0) :
    next a rest = continuation 2 (if a.toNat = 0xe0 then 0xa0 else 0x80) (if a.toNat = 0xed then 0x9f else 0xbf)
      (a.toNat % 16) [a] rest := by
  rw [next, lead, if_neg (by omega), if_neg (by omega), if_neg (by omega)]
  by_cases first : a.toNat = 0xe0
  · simp only [first]
    rfl
  · by_cases surrogate : a.toNat = 0xed
    · simp only [surrogate]
      rfl
    · rw [if_neg first, if_neg first, if_neg surrogate, if_neg surrogate, if_pos (by omega)]
      rfl

theorem next_four (low : 0xf0 ≤ a.toNat) (high : a.toNat ≤ 0xf4) :
    next a rest = continuation 3 (if a.toNat = 0xf0 then 0x90 else 0x80) (if a.toNat = 0xf4 then 0x8f else 0xbf)
      (a.toNat % 8) [a] rest := by
  rw [next, lead, if_neg (by omega), if_neg (by omega), if_neg (by omega), if_neg (by omega), if_neg (by omega),
    if_neg (by omega)]
  by_cases first : a.toNat = 0xf0
  · simp only [first]
    rfl
  · by_cases last : a.toNat = 0xf4
    · simp only [last]
      rfl
    · rw [if_neg first, if_neg first, if_pos (by omega), if_neg last]
      rfl

theorem next_other (low : 0x80 ≤ a.toNat) (outside : a.toNat < 0xc2 ∨ 0xf4 < a.toNat) :
    next a rest = .error ([a], .invalidStart) := by
  have none : lead a.toNat = none := by
    unfold lead
    rcases outside with below | above
    · rw [if_pos below]
    · rw [if_neg (by omega), if_neg (by omega), if_neg (by omega), if_neg (by omega), if_neg (by omega),
        if_neg (by omega), if_neg (by omega), if_neg (by omega)]
  rw [next, if_neg (by omega), none]

end Next

theorem sequence_of_next {a : UInt8} {rest more : Bytes} {code : Nat} (h : next a rest = .ok (code, more)) :
    ∃ used, a :: rest = used ++ more ∧ Sequence used code := by
  by_cases ascii : a.toNat < 0x80
  · rw [next_one rest ascii] at h
    cases h
    exact ⟨[a], rfl, .one a ascii⟩
  by_cases outside : a.toNat < 0xc2 ∨ 0xf4 < a.toNat
  · rw [next_other rest (by omega) outside] at h
    cases h
  by_cases short : a.toNat < 0xe0
  · rw [next_two rest (by omega) short] at h
    obtain ⟨b, _, rfl, low, high, h⟩ := continuation_succ_eq_ok.mp h
    cases continuation_zero_eq_ok.mp h
    exact ⟨[a, b], rfl, .two a b (by omega) short ⟨low, high⟩⟩
  by_cases middle : a.toNat < 0xf0
  · rw [next_three rest (by omega) middle] at h
    obtain ⟨b, _, rfl, low, high, h⟩ := continuation_succ_eq_ok.mp h
    obtain ⟨c, _, rfl, lowThird, highThird, h⟩ := continuation_succ_eq_ok.mp h
    cases continuation_zero_eq_ok.mp h
    refine ⟨[a, b, c], rfl, .three a b c (by omega) middle ⟨?_, ?_⟩ ?_ ?_ ⟨lowThird, highThird⟩⟩
    all_goals split at low <;> split at high <;> omega
  · rw [next_four rest (by omega) (by omega)] at h
    obtain ⟨b, _, rfl, low, high, h⟩ := continuation_succ_eq_ok.mp h
    obtain ⟨c, _, rfl, lowThird, highThird, h⟩ := continuation_succ_eq_ok.mp h
    obtain ⟨d, _, rfl, lowFourth, highFourth, h⟩ := continuation_succ_eq_ok.mp h
    cases continuation_zero_eq_ok.mp h
    refine ⟨[a, b, c, d], rfl, .four a b c d (by omega) (by omega) ⟨?_, ?_⟩ ?_ ?_ ⟨lowThird, highThird⟩
      ⟨lowFourth, highFourth⟩⟩
    all_goals split at low <;> split at high <;> omega

theorem eq_ofNat {a : UInt8} {n : Nat} (h : a.toNat = n) : a = UInt8.ofNat n := by
  rw [← h, UInt8.ofNat_toNat]

namespace Sequence

theorem next {used : Bytes} {code : Nat} (h : Sequence used code) :
    ∃ a more, used = a :: more ∧ ∀ rest, Utf8.next a (more ++ rest) = .ok (code, rest) := by
  cases h with
  | one a ascii => exact ⟨a, [], rfl, fun rest => next_one rest ascii⟩
  | two a b low high second =>
      refine ⟨a, [b], rfl, fun rest => ?_⟩
      rw [next_two _ low high]
      exact continuation_succ_eq_ok.mpr ⟨b, rest, rfl, second.1, second.2, rfl⟩
  | three a b c low high second shortest scalar third =>
      refine ⟨a, [b, c], rfl, fun rest => ?_⟩
      obtain ⟨lowSecond, highSecond⟩ := second
      rw [next_three _ low high]
      refine continuation_succ_eq_ok.mpr ⟨b, c :: rest, rfl, ?_, ?_, ?_⟩
      · split <;> omega
      · split <;> omega
      · exact continuation_succ_eq_ok.mpr ⟨c, rest, rfl, third.1, third.2, rfl⟩
  | four a b c d low high second shortest scalar third fourth =>
      refine ⟨a, [b, c, d], rfl, fun rest => ?_⟩
      obtain ⟨lowSecond, highSecond⟩ := second
      rw [next_four _ low high]
      refine continuation_succ_eq_ok.mpr ⟨b, c :: d :: rest, rfl, ?_, ?_, ?_⟩
      · split <;> omega
      · split <;> omega
      · refine continuation_succ_eq_ok.mpr ⟨c, d :: rest, rfl, third.1, third.2, ?_⟩
        exact continuation_succ_eq_ok.mpr ⟨d, rest, rfl, fourth.1, fourth.2, rfl⟩

theorem isValidChar {used : Bytes} {code : Nat} (h : Sequence used code) : code.isValidChar := by
  cases h with
  | one a ascii =>
      left
      omega
  | two a b low high second =>
      left
      omega
  | three a b c low high second shortest scalar third =>
      unfold Tail at second third
      unfold Nat.isValidChar
      omega
  | four a b c d low high second shortest scalar third fourth =>
      unfold Tail at second third fourth
      unfold Nat.isValidChar
      omega

/-- A character is spelled with the sequence that stands for it. -/
theorem eq_utf8EncodeChar {used : Bytes} {code : Nat} (h : Sequence used code) {c : Char} (same : c.val.toNat = code) :
    used = String.utf8EncodeChar c := by
  unfold String.utf8EncodeChar
  cases h with
  | one a ascii =>
      rw [if_pos (by omega), same, UInt8.ofNat_toNat]
  | two a b low high second =>
      unfold Tail at second
      have := a.toNat_lt
      rw [if_neg (by omega), if_pos (by omega)]
      congr
      · exact eq_ofNat (by omega)
      · exact eq_ofNat (by omega)
  | three a b c low high second shortest scalar third =>
      unfold Tail at second third
      rw [if_neg (by omega), if_neg (by omega), if_pos (by omega)]
      congr
      · exact eq_ofNat (by omega)
      · exact eq_ofNat (by omega)
      · exact eq_ofNat (by omega)
  | four a b c d low high second shortest scalar third fourth =>
      unfold Tail at second third fourth
      rw [if_neg (by omega), if_neg (by omega), if_neg (by omega)]
      congr
      · exact eq_ofNat (by omega)
      · exact eq_ofNat (by omega)
      · exact eq_ofNat (by omega)
      · exact eq_ofNat (by omega)

theorem trans_eq {used : Bytes} {code other : Nat} (h : Sequence used code) (same : code = other) : Sequence used other :=
  same ▸ h

end Sequence

theorem sequence_utf8EncodeChar (c : Char) : Sequence (String.utf8EncodeChar c) c.val.toNat := by
  have valid : c.val.toNat < 0xd800 ∨ 0xdfff < c.val.toNat ∧ c.val.toNat < 0x110000 := c.valid
  unfold String.utf8EncodeChar
  generalize c.val.toNat = v at valid
  have byte : ∀ n, n < 256 → (UInt8.ofNat n).toNat = n := fun n small => UInt8.toNat_ofNat_of_lt' small
  by_cases one : v ≤ 0x7f
  · rw [if_pos one]
    have first := byte v (by omega)
    exact (Sequence.one _ (by omega)).trans_eq first
  by_cases two : v ≤ 0x7ff
  · rw [if_neg one, if_pos two]
    have first := byte (v / 64 % 32 + 0xc0) (by omega)
    have second := byte (v % 64 + 0x80) (by omega)
    refine (Sequence.two _ _ (by omega) (by omega) ⟨by omega, by omega⟩).trans_eq ?_
    rw [first, second]
    omega
  by_cases three : v ≤ 0xffff
  · rw [if_neg one, if_neg two, if_pos three]
    have first := byte (v / 4096 % 16 + 0xe0) (by omega)
    have second := byte (v / 64 % 64 + 0x80) (by omega)
    have third := byte (v % 64 + 0x80) (by omega)
    refine (Sequence.three _ _ _ (by omega) (by omega) ⟨by omega, by omega⟩ ?_ ?_ ⟨by omega, by omega⟩).trans_eq ?_
    · rw [first, second]
      omega
    · rw [first, second]
      omega
    · rw [first, second, third]
      omega
  · rw [if_neg one, if_neg two, if_neg three]
    have first := byte (v / 262144 % 8 + 0xf0) (by omega)
    have second := byte (v / 4096 % 64 + 0x80) (by omega)
    have third := byte (v / 64 % 64 + 0x80) (by omega)
    have fourth := byte (v % 64 + 0x80) (by omega)
    refine (Sequence.four _ _ _ _ (by omega) (by omega) ⟨by omega, by omega⟩ ?_ ?_ ⟨by omega, by omega⟩
      ⟨by omega, by omega⟩).trans_eq ?_
    · rw [first, second]
      omega
    · rw [first, second]
      omega
    · rw [first, second, third, fourth]
      omega

/-- The characters that were decoded are spelled with the bytes that were read. -/
theorem decodeFrom_eq_ok {fuel offset : Nat} {acc cs : List Char} {b : Bytes} (enough : b.length ≤ fuel)
    (h : decodeFrom fuel offset acc b = .ok cs) :
    ∃ more, cs = acc.reverse ++ more ∧ more.flatMap String.utf8EncodeChar = b := by
  induction fuel generalizing offset acc b with
  | zero =>
      cases b with
      | nil =>
          cases h
          exact ⟨[], (List.append_nil _).symm, rfl⟩
      | cons a rest => exact absurd enough (Nat.not_succ_le_zero _)
  | succ fuel ih =>
      cases b with
      | nil =>
          cases h
          exact ⟨[], (List.append_nil _).symm, rfl⟩
      | cons a rest =>
          rw [decodeFrom] at h
          split at h
          case h_2 => cases h
          case h_1 code rest' read =>
            obtain ⟨used, spelled, sequence⟩ := sequence_of_next read
            obtain ⟨first, others, rfl, _⟩ := sequence.next
            have shorter : rest'.length ≤ fuel := by
              have := congrArg List.length spelled
              simp only [List.length_cons, List.length_append] at this enough
              omega
            obtain ⟨more, rfl, bytes⟩ := ih shorter h
            refine ⟨Char.ofNat code :: more, by simp, ?_⟩
            have value : (Char.ofNat code).val.toNat = code := by
              rw [Char.ofNat, dif_pos sequence.isValidChar]
              rfl
            rw [List.flatMap_cons, ← sequence.eq_utf8EncodeChar value, bytes, spelled]

theorem decodeFrom_flatMap (cs acc : List Char) {fuel : Nat} (offset : Nat)
    (enough : (cs.flatMap String.utf8EncodeChar).length ≤ fuel) :
    decodeFrom fuel offset acc (cs.flatMap String.utf8EncodeChar) = .ok (acc.reverse ++ cs) := by
  induction cs generalizing acc fuel offset with
  | nil =>
      rw [List.append_nil]
      cases fuel <;> rfl
  | cons c cs ih =>
      obtain ⟨a, more, spelled, read⟩ := (sequence_utf8EncodeChar c).next
      rw [List.flatMap_cons, spelled] at enough ⊢
      simp only [List.length_append, List.length_cons] at enough
      obtain ⟨fuel, rfl⟩ : ∃ n, fuel = n + 1 := ⟨fuel - 1, by omega⟩
      have character : Char.ofNat c.val.toNat = c := Char.ofNat_toNat c
      rw [List.cons_append, decodeFrom, read]
      simp only [character]
      rw [ih (c :: acc) _ (by omega), List.reverse_cons, List.append_assoc, List.singleton_append]

theorem toList_loop (b : ByteArray) (i : Nat) (acc : List UInt8) :
    ByteArray.toList.loop b i acc = acc.reverse ++ b.data.toList.drop i := by
  fun_induction ByteArray.toList.loop b i acc with
  | case1 i acc inside ih =>
      have within : i < b.data.toList.length := inside
      have byte : b.get! i = b.data.toList.get ⟨i, within⟩ := by
        change b.data[i]! = _
        rw [getElem!_pos b.data i inside]
        rfl
      rw [ih, List.reverse_cons, List.append_assoc, List.singleton_append, List.drop_eq_getElem_cons within, byte]
      rfl
  | case2 i acc outside =>
      have past : b.data.toList.length ≤ i := Nat.not_lt.mp outside
      rw [List.drop_eq_nil_of_le past, List.append_nil]

/-- The bytes of a text are those of its characters. -/
theorem encode_eq_flatMap (s : String) : encode s = s.toList.flatMap String.utf8EncodeChar := by
  rw [encode, String.toUTF8_eq_toByteArray, ← String.utf8Encode_toList, List.utf8Encode, ByteArray.toList, toList_loop,
    List.toList_data_toByteArray]
  rfl

theorem decode_encode (s : String) : decode (encode s) = .ok s := by
  rw [decode, encode_eq_flatMap, decodeFrom_flatMap s.toList [] 0 (Nat.le_refl _)]
  simp [Except.map]

theorem encode_of_decode {b : Bytes} {s : String} (h : decode b = .ok s) : encode s = b := by
  unfold decode at h
  cases read : decodeFrom b.length 0 [] b with
  | error m =>
      rw [read] at h
      cases h
  | ok cs =>
      rw [read] at h
      cases h
      obtain ⟨more, rfl, bytes⟩ := decodeFrom_eq_ok (Nat.le_refl _) read
      rw [encode_eq_flatMap, String.toList_ofList]
      exact bytes

def IsAscii (s : String) : Prop := ∀ c ∈ s.toList, c.toNat < 128

instance (s : String) : Decidable (IsAscii s) := List.decidableBAll (fun c : Char => c.toNat < 128) s.toList

theorem length_le_flatMap (cs : List Char) : cs.length ≤ (cs.flatMap String.utf8EncodeChar).length := by
  induction cs with
  | nil => exact Nat.le_refl _
  | cons c cs ih =>
      have := c.utf8Size_pos
      rw [List.flatMap_cons, List.length_append, String.length_utf8EncodeChar, List.length_cons]
      omega

theorem length_flatMap_eq_iff (cs : List Char) :
    (cs.flatMap String.utf8EncodeChar).length = cs.length ↔ ∀ c ∈ cs, c.toNat < 128 := by
  induction cs with
  | nil => simp
  | cons c cs ih =>
      have pos := c.utf8Size_pos
      have rest := length_le_flatMap cs
      have one : c.utf8Size = 1 ↔ c.toNat < 128 := by
        rw [Char.utf8Size_eq_one_iff, UInt32.le_iff_toNat_le]
        exact Nat.lt_succ_iff.symm
      rw [List.forall_mem_cons, ← ih, ← one, List.flatMap_cons, List.length_append, String.length_utf8EncodeChar,
        List.length_cons]
      omega

theorem length_le_encode (s : String) : s.length ≤ (encode s).length := by
  rw [encode_eq_flatMap, ← String.length_toList]
  exact length_le_flatMap s.toList

/-- A text has as many bytes as characters when all of them are ASCII. -/
theorem length_encode_eq_iff (s : String) : (encode s).length = s.length ↔ IsAscii s := by
  rw [encode_eq_flatMap, ← String.length_toList]
  exact length_flatMap_eq_iff s.toList

end GameData.Utf8
