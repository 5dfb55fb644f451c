import GameData.Proofs.Script.Codec
import GameData.Proofs.Text.Utf8

/-!
Tables of strings and of offsets, written and read back.

A table of strings is stated to be as long as its characters and ends, while it takes as many bytes as its
encoding. `decodeStrings_take_iff` says that the stated part of the table holds all strings exactly when they are
ASCII: a shorter part ends before the last zero byte and holds fewer strings.
-/
namespace GameData

namespace Bytes

variable {sep : UInt8}

theorem splitOn_cons_sep (rest : Bytes) : splitOn sep (sep :: rest) = [] :: splitOn sep rest := by
  rw [splitOn, if_pos rfl]

theorem splitOn_ne_nil (b : Bytes) : splitOn sep b ≠ [] := by
  cases b with
  | nil => exact List.cons_ne_nil _ _
  | cons x xs =>
      unfold splitOn
      split
      · exact List.cons_ne_nil _ _
      · split <;> exact List.cons_ne_nil _ _

theorem splitOn_append_sep {piece : Bytes} (clean : sep ∉ piece) (rest : Bytes) :
    splitOn sep (piece ++ sep :: rest) = piece :: splitOn sep rest := by
  induction piece with
  | nil => exact splitOn_cons_sep rest
  | cons x piece ih =>
      have other : x ≠ sep := fun same => clean (same ▸ List.mem_cons_self)
      rw [List.cons_append, splitOn, if_neg other, ih fun mem => clean (List.mem_cons_of_mem x mem)]

theorem not_mem_of_mem_splitOn {b piece : Bytes} (mem : piece ∈ splitOn sep b) : sep ∉ piece := by
  induction b generalizing piece with
  | nil =>
      rw [List.mem_singleton.mp mem]
      exact List.not_mem_nil
  | cons x xs ih =>
      unfold splitOn at mem
      split at mem
      case isTrue =>
        rcases List.mem_cons.mp mem with rfl | later
        · exact List.not_mem_nil
        · exact ih later
      case isFalse other =>
        split at mem
        case h_1 none => exact absurd none (splitOn_ne_nil xs)
        case h_2 first others split =>
          rcases List.mem_cons.mp mem with rfl | later
          · intro inside
            rcases List.mem_cons.mp inside with same | inside
            · exact other same.symm
            · exact ih (split ▸ List.mem_cons_self) inside
          · exact ih (split ▸ List.mem_cons_of_mem first later)

theorem length_splitOn (b : Bytes) : (splitOn sep b).length = b.count sep + 1 := by
  induction b with
  | nil => rfl
  | cons x xs ih =>
      by_cases same : x = sep
      · subst same
        rw [splitOn_cons_sep, List.length_cons, ih, List.count_cons_self]
      · rw [List.count_cons_of_ne same, ← ih, splitOn, if_neg same]
        split
        case h_1 none => exact absurd none (splitOn_ne_nil xs)
        case h_2 first others split => rw [split, List.length_cons, List.length_cons]

/-- The pieces but the last, each with the separator behind it, make up the string up to the last one. -/
theorem flatMap_dropLast_splitOn (b : Bytes) :
    ∃ rest, b = (splitOn sep b).dropLast.flatMap (fun piece => piece ++ [sep]) ++ rest := by
  induction b with
  | nil => exact ⟨[], rfl⟩
  | cons x xs ih =>
      obtain ⟨rest, whole⟩ := ih
      by_cases same : x = sep
      · subst same
        refine ⟨rest, ?_⟩
        rw [splitOn_cons_sep, List.dropLast_cons_of_ne_nil (splitOn_ne_nil xs), List.flatMap_cons, List.nil_append,
          List.append_assoc, ← whole, List.singleton_append]
      · rw [splitOn, if_neg same]
        split
        case h_1 none => exact absurd none (splitOn_ne_nil xs)
        case h_2 first others split =>
          rw [split] at whole
          cases others with
          | nil => exact ⟨x :: xs, rfl⟩
          | cons second others =>
              refine ⟨rest, ?_⟩
              rw [List.dropLast_cons_of_ne_nil (List.cons_ne_nil _ _), List.flatMap_cons] at whole ⊢
              rw [List.cons_append, List.cons_append, List.cons_append, ← whole]

end Bytes

namespace Script

open Bytes

def Unbroken (s : String) : Prop := 0 ∉ Utf8.encode s

theorem encodeStrings_cons (s : String) (ss : List String) (rest : Bytes) :
    encodeStrings (s :: ss) ++ rest = Utf8.encode s ++ 0 :: (encodeStrings ss ++ rest) := by
  rw [encodeStrings, List.flatMap_cons, List.append_assoc, List.append_assoc, List.singleton_append]
  rfl

theorem decodeStrings_encodeStrings {ss : List String} (unbroken : ∀ s ∈ ss, Unbroken s) :
    decodeStrings (encodeStrings ss) = .ok ss := by
  induction ss with
  | nil => rfl
  | cons s ss ih =>
      obtain ⟨first, others⟩ := List.forall_mem_cons.mp unbroken
      have table := encodeStrings_cons s ss []
      rw [List.append_nil, List.append_nil] at table
      rw [decodeStrings, table, splitOn_append_sep first, List.dropLast_cons_of_ne_nil (splitOn_ne_nil _)]
      refine mapM_cons_eq_ok.mpr ⟨s, ss, ?_, ih others, rfl⟩
      rw [Utf8.decode_encode]

/-- A table holds the strings that are read from it, each with its end, in front of what is dropped. -/
theorem encodeStrings_of_decodeStrings {b : Bytes} {ss : List String} (h : decodeStrings b = .ok ss) :
    ∃ rest, b = encodeStrings ss ++ rest := by
  obtain ⟨rest, whole⟩ : ∃ rest, b = (splitOn 0 b).dropLast.flatMap (fun piece => piece ++ [0]) ++ rest :=
    flatMap_dropLast_splitOn b
  have same : encodeStrings ss = (splitOn 0 b).dropLast.flatMap fun piece => piece ++ [0] := by
    unfold decodeStrings at h
    generalize (splitOn 0 b).dropLast = ps at h
    induction ps generalizing ss with
    | nil =>
        cases h
        rfl
    | cons piece ps ih =>
        obtain ⟨s, others, read, later, rfl⟩ := mapM_cons_eq_ok.mp h
        split at read
        case h_1 t decoded =>
          cases read
          rw [List.flatMap_cons, ← ih later, encodeStrings, List.flatMap_cons, Utf8.encode_of_decode decoded]
          rfl
        case h_2 => cases read
  exact ⟨rest, by rw [same, ← whole]⟩

/-- A table no longer than its strings holds nothing else. -/
theorem eq_encodeStrings {b : Bytes} {ss : List String} (h : decodeStrings b = .ok ss)
    (short : b.length ≤ (encodeStrings ss).length) : b = encodeStrings ss := by
  obtain ⟨rest, table⟩ := encodeStrings_of_decodeStrings h
  rw [table, List.length_append] at short
  rw [table, List.eq_nil_of_length_eq_zero (by omega : rest.length = 0), List.append_nil]

/-- A table has one string for each zero byte, and no string has one inside. -/
theorem decodeStrings_eq_ok {b : Bytes} {ss : List String} (h : decodeStrings b = .ok ss) :
    ss.length = b.count 0 ∧ ∀ s ∈ ss, Unbroken s := by
  constructor
  · rw [length_of_mapM_eq_ok h, List.length_dropLast, length_splitOn, Nat.add_sub_cancel]
  · have pieces : ∀ piece ∈ (splitOn 0 b).dropLast, 0 ∉ piece :=
      fun piece mem => not_mem_of_mem_splitOn (List.dropLast_subset _ mem)
    unfold decodeStrings at h
    generalize (splitOn 0 b).dropLast = ps at h pieces
    induction ps generalizing ss with
    | nil =>
        cases h
        exact List.forall_mem_nil _
    | cons piece ps ih =>
        obtain ⟨s, rest, read, others, rfl⟩ := mapM_cons_eq_ok.mp h
        obtain ⟨clean, cleanOthers⟩ := List.forall_mem_cons.mp pieces
        refine List.forall_mem_cons.mpr ⟨?_, ih others cleanOthers⟩
        split at read
        case h_1 t decoded =>
          cases read
          rw [Unbroken, Utf8.encode_of_decode decoded]
          exact clean
        case h_2 => cases read

theorem count_encodeStrings {ss : List String} (unbroken : ∀ s ∈ ss, Unbroken s) :
    (encodeStrings ss).count 0 = ss.length :=
  (decodeStrings_eq_ok (decodeStrings_encodeStrings unbroken)).1.symm

theorem stringsSize_cons (s : String) (ss : List String) : stringsSize (s :: ss) = s.length + 1 + stringsSize ss := by
  have shift : ∀ (ss : List String) (n : Nat), ss.foldl (fun n s => n + s.length + 1) n = n + stringsSize ss := by
    intro ss
    induction ss with
    | nil => exact fun n => rfl
    | cons t ss ih =>
        intro n
        have first : stringsSize (t :: ss) = 0 + t.length + 1 + stringsSize ss := ih (0 + t.length + 1)
        rw [List.foldl_cons, ih, first]
        omega
  rw [stringsSize, List.foldl_cons, shift]
  omega

theorem length_encodeStrings_cons (s : String) (ss : List String) :
    (encodeStrings (s :: ss)).length = (Utf8.encode s).length + 1 + (encodeStrings ss).length := by
  rw [encodeStrings, List.flatMap_cons, List.length_append, List.length_append]
  rfl

theorem stringsSize_le (ss : List String) : stringsSize ss ≤ (encodeStrings ss).length := by
  induction ss with
  | nil => exact Nat.le_refl _
  | cons s ss ih =>
      have := Utf8.length_le_encode s
      rw [stringsSize_cons, length_encodeStrings_cons]
      omega

theorem length_encodeStrings_eq_iff (ss : List String) :
    (encodeStrings ss).length = stringsSize ss ↔ ∀ s ∈ ss, Utf8.IsAscii s := by
  induction ss with
  | nil => exact ⟨fun _ => List.forall_mem_nil _, fun _ => rfl⟩
  | cons s ss ih =>
      have first := Utf8.length_le_encode s
      have others := stringsSize_le ss
      rw [List.forall_mem_cons, ← ih, ← Utf8.length_encode_eq_iff, stringsSize_cons, length_encodeStrings_cons]
      omega

theorem encodeStrings_ends {ss : List String} (some : ss ≠ []) : ∃ front, encodeStrings ss = front ++ [0] := by
  obtain ⟨front, last, rfl⟩ : ∃ front last, ss = front ++ [last] :=
    ⟨ss.dropLast, ss.getLast some, (List.dropLast_concat_getLast some).symm⟩
  refine ⟨encodeStrings front ++ Utf8.encode last, ?_⟩
  rw [encodeStrings, List.flatMap_append, List.flatMap_singleton, List.append_assoc]
  rfl

/-- A part of a table that ends before the table holds fewer strings. -/
theorem count_take_lt {ss : List String} {n : Nat} (short : n < (encodeStrings ss).length) :
    ((encodeStrings ss).take n).count 0 < (encodeStrings ss).count 0 := by
  have some : ss ≠ [] := by
    rintro rfl
    exact Nat.not_lt_zero n short
  obtain ⟨front, ends⟩ := encodeStrings_ends some
  rw [ends, List.length_append, List.length_singleton] at short
  rw [ends, List.take_append_of_le_length (Nat.le_of_lt_succ short), List.count_append, List.count_singleton_self]
  have := (List.take_sublist n front).count_le 0
  omega

/-- The stated part of a table holds its strings exactly when all of them are ASCII. -/
theorem decodeStrings_take_iff {ss : List String} (unbroken : ∀ s ∈ ss, Unbroken s) (rest : Bytes) :
    decodeStrings ((encodeStrings ss ++ rest).take (stringsSize ss)) = .ok ss ↔ ∀ s ∈ ss, Utf8.IsAscii s := by
  rw [← length_encodeStrings_eq_iff, List.take_append_of_le_length (stringsSize_le ss)]
  constructor
  · intro read
    rcases Nat.lt_or_eq_of_le (stringsSize_le ss) with short | same
    · have fewer := count_take_lt short
      have counted := (decodeStrings_eq_ok read).1
      rw [count_encodeStrings unbroken] at fewer
      omega
    · exact same.symm
  · intro same
    rw [← same, List.take_length]
    exact decodeStrings_encodeStrings unbroken

def IsOffset (n : Int) : Prop := Field.u32.least ≤ n ∧ n < Field.u32.limit

theorem encodeOffsets_eq_ok {offsets : List Int} (inside : ∀ n ∈ offsets, IsOffset n) :
    encodeOffsets offsets = .ok (offsets.flatMap (ofInt 4)) := Field.mapM_packInt inside

theorem decodeOffsets_flatMap {offsets : List Int} (inside : ∀ n ∈ offsets, IsOffset n) :
    decodeOffsets (offsets.flatMap (ofInt 4)) = .ok offsets := by
  have whole : (offsets.flatMap (ofInt 4)).length % 4 = 0 := by
    rw [length_flatMap_ofInt]
    omega
  have each : offsets.map (Int.ofNat ∘ fun n => ofLE (ofInt 4 n)) = offsets.map id :=
    List.map_congr_left fun n mem => Field.unpackInt_ofInt (inside n mem).1 (inside n mem).2
  rw [decodeOffsets, if_pos whole, words_flatMap_ofInt (by decide), List.map_map, each, List.map_id]

theorem flatMap_of_decodeOffsets {b : Bytes} {offsets : List Int} (h : decodeOffsets b = .ok offsets) :
    offsets.flatMap (ofInt 4) = b := by
  unfold decodeOffsets at h
  split at h
  case isTrue whole =>
    cases h
    exact flatMap_ofInt_words (by decide) whole
  case isFalse => cases h

theorem isOffset_of_decodeOffsets {b : Bytes} {offsets : List Int} (h : decodeOffsets b = .ok offsets) :
    ∀ n ∈ offsets, IsOffset n := by
  unfold decodeOffsets at h
  split at h
  · cases h
    intro n mem
    obtain ⟨w, word, rfl⟩ := List.mem_map.mp mem
    exact ⟨Int.natCast_nonneg w, Int.ofNat_lt.mpr (words_lt word)⟩
  · cases h

end Script

end GameData
