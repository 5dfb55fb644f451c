import Mathlib
import GameData.Proofs.Script.Grown

/-!
String literals read back.

In a literal a backslash and the character behind it may stand for a line end, a quote or a backslash. Line ends and
quotes of a string are escaped in its literal; backslashes are not, so that one in front of such a character, or at the
end, is read together with what follows it. Main statement: a literal stands for its string exactly when no backslash
does so, and two strings share a literal exactly when they agree after every line end is spelled out.
-/
namespace GameData.Script

section Reading

/-- What a backslash and the character behind it stand for. -/
def unescape (c : Char) : List Char :=
  if c = 'n' then ['\n'] else if c = '"' then ['"'] else if c = '\\' then ['\\'] else ['\\', c]

def prepend (front : List Char) (found : List Char × List Char) : List Char × List Char := (front ++ found.1, found.2)

/-- The characters of a literal from behind its first quote up to the quote that closes it, and what follows that. -/
def readText : List Char → Option (List Char × List Char)
  | [] => none
  | '"' :: rest => some ([], rest)
  | '\\' :: c :: rest => (readText rest).map (prepend (unescape c))
  | c :: rest => (readText rest).map (prepend [c])

/-- The string that a text starts with as a literal, and what follows the literal. -/
def readLiteral (text : String) : Option (String × String) :=
  match text.toList with
  | '"' :: rest => (readText rest).map fun found => (String.ofList found.1, String.ofList found.2)
  | _ => none

theorem readText_other {c : Char} (noQuote : c ≠ '"') (noSlash : c ≠ '\\') (rest : List Char) :
    readText (c :: rest) = (readText rest).map (prepend [c]) := by
  rw [readText]
  · exact noQuote
  · rintro d rest rfl
    exact absurd rfl noSlash

end Reading

section Escaping

def escapeChar (c : Char) : List Char :=
  if c == '\n' then ['\\', 'n'] else if c == '"' then ['\\', '"'] else [c]

theorem escapeChar_other {c : Char} (noLine : c ≠ '\n') (noQuote : c ≠ '"') : escapeChar c = [c] := by
  simp [escapeChar, noLine, noQuote]

/-- The literal of a string from behind its first quote on. -/
def closed (s : List Char) : List Char := s.flatMap escapeChar ++ ['"']

theorem closed_cons (c : Char) (s : List Char) : closed (c :: s) = escapeChar c ++ closed s := by
  rw [closed, closed, List.flatMap_cons, List.append_assoc]

theorem toList_quoted (s : String) : (quoted s).toList = '"' :: closed s.toList := by
  have spelled : escape s = String.ofList (s.toList.flatMap escapeChar) := rfl
  simp [quoted, spelled, closed]

/-- The characters that a backslash must not stand in front of. -/
def escapable : List Char := ['n', '"', '\\', '\n']

/-- No backslash of the string or its literal is taken for an escape: each one is followed by another character than
those, the closing quote included. -/
def Unambiguous (s : String) : Prop := (s.toList ++ ['"']).IsChain fun c d => c = '\\' → d ∉ escapable

instance (s : String) : Decidable (Unambiguous s) :=
  inferInstanceAs (Decidable ((s.toList ++ ['"']).IsChain fun c d => c = '\\' → d ∉ escapable))

theorem readText_closed_cons {c : Char} (noSlash : c ≠ '\\') (s : List Char) :
    readText (closed (c :: s)) = (readText (closed s)).map (prepend [c]) := by
  rw [closed_cons]
  by_cases line : c = '\n'
  · subst line
    rfl
  by_cases quote : c = '"'
  · subst quote
    rfl
  rw [escapeChar_other line quote]
  exact readText_other quote noSlash _

/-- What is read of a backslash and the character behind it; a line end was escaped before. -/
def readPair (d : Char) : List Char := if d = '\n' then ['\\', 'n'] else unescape d

theorem readText_closed_slash {d : Char} (noQuote : d ≠ '"') (s : List Char) :
    readText (closed ('\\' :: d :: s)) = (readText (closed s)).map (prepend (readPair d)) := by
  have slash : escapeChar '\\' = ['\\'] := rfl
  rw [closed_cons, closed_cons, slash]
  by_cases line : d = '\n'
  · subst line
    change ((readText (closed s)).map (prepend ['n'])).map (prepend ['\\']) = _
    rw [Option.map_map]
    rfl
  rw [escapeChar_other line noQuote, readPair, if_neg line]
  rfl

theorem readText_closed_slash_quote (s : List Char) :
    readText (closed ('\\' :: '"' :: s)) = some (['\\'], closed s) := by
  have slash : escapeChar '\\' = ['\\'] := rfl
  have quote : escapeChar '"' = ['\\', '"'] := rfl
  rw [closed_cons, closed_cons, slash, quote]
  rfl

theorem readPair_eq {d : Char} (other : d ∉ escapable) : readPair d = ['\\', d] := by
  simp only [escapable, List.mem_cons, List.not_mem_nil, or_false, not_or] at other
  obtain ⟨letter, quote, slash, line⟩ := other
  rw [readPair, if_neg line, unescape, if_neg letter, if_neg quote, if_neg slash]

theorem length_readPair_le (d : Char) : (readPair d).length ≤ 2 := by
  unfold readPair unescape
  split_ifs <;> simp

theorem not_mem_escapable {d : Char} (noQuote : d ≠ '"') (same : readPair d = ['\\', d]) : d ∉ escapable := by
  intro mem
  simp only [escapable, List.mem_cons, List.not_mem_nil, or_false] at mem
  rcases mem with rfl | rfl | rfl | rfl
  · cases same
  · exact noQuote rfl
  · cases same
  · cases same

theorem length_le_of_readText {s t rest : List Char} (h : readText (closed s) = some (t, rest)) :
    t.length ≤ s.length := by
  cases s with
  | nil =>
      cases h
      exact Nat.le_refl 0
  | cons c s =>
      by_cases slash : c = '\\'
      · subst slash
        cases s with
        | nil => cases h
        | cons d s =>
            by_cases quote : d = '"'
            · subst quote
              rw [readText_closed_slash_quote] at h
              cases h
              exact Nat.succ_le_succ (Nat.zero_le _)
            · rw [readText_closed_slash quote] at h
              obtain ⟨found, read, same⟩ := Option.map_eq_some_iff.mp h
              cases same
              have shorter := length_le_of_readText read
              have pair := length_readPair_le d
              rw [List.length_append, List.length_cons, List.length_cons]
              omega
      · rw [readText_closed_cons slash] at h
        obtain ⟨found, read, same⟩ := Option.map_eq_some_iff.mp h
        cases same
        exact Nat.succ_le_succ (length_le_of_readText read)
termination_by s.length

theorem readText_of_chain {s : List Char} (chain : (s ++ ['"']).IsChain fun c d => c = '\\' → d ∉ escapable) :
    readText (closed s) = some (s, []) := by
  induction s with
  | nil => rfl
  | cons c s ih =>
      obtain ⟨apart, later⟩ := List.isChain_cons.mp chain
      have rest := ih later
      by_cases slash : c = '\\'
      · subst slash
        cases s with
        | nil => exact absurd (List.mem_cons_of_mem _ List.mem_cons_self) (apart '"' rfl rfl)
        | cons d s =>
            have other : d ∉ escapable := apart d rfl rfl
            have noSlash : d ≠ '\\' := (ne_of_mem_of_not_mem (by decide) other).symm
            have noQuote : d ≠ '"' := (ne_of_mem_of_not_mem (by decide) other).symm
            rw [readText_closed_cons noSlash] at rest
            obtain ⟨⟨front, left⟩, read, same⟩ := Option.map_eq_some_iff.mp rest
            cases same
            rw [readText_closed_slash noQuote, read, readPair_eq other]
            rfl
      · rw [readText_closed_cons slash, rest]
        rfl

theorem chain_of_readText {s : List Char} (h : readText (closed s) = some (s, [])) :
    (s ++ ['"']).IsChain fun c d => c = '\\' → d ∉ escapable := by
  induction s with
  | nil => exact .singleton _
  | cons c s ih =>
      by_cases slash : c = '\\'
      · subst slash
        cases s with
        | nil => cases h
        | cons d s =>
            by_cases quote : d = '"'
            · subst quote
              rw [readText_closed_slash_quote] at h
              cases h
            · rw [readText_closed_slash quote] at h
              obtain ⟨⟨front, left⟩, read, same⟩ := Option.map_eq_some_iff.mp h
              obtain ⟨whole, rfl⟩ := Prod.mk.inj same
              have joined : readPair d ++ front = ['\\', d] ++ s := whole
              -- the rest is too short to make up for a pair that was read as one character
              have shorter := length_le_of_readText read
              have pair := length_readPair_le d
              have total := congrArg List.length joined
              rw [List.length_append, List.length_append] at total
              have two : (readPair d).length = ['\\', d].length := by
                change _ = 2 + s.length at total
                change _ = 2
                omega
              obtain ⟨kept, rfl⟩ := List.append_inj joined two
              have other := not_mem_escapable quote kept
              have noSlash : d ≠ '\\' := (ne_of_mem_of_not_mem (by decide) other).symm
              have later : readText (closed (d :: front)) = some (d :: front, []) := by
                rw [readText_closed_cons noSlash, read]
                rfl
              exact List.isChain_cons_cons.mpr ⟨fun _ => other, ih later⟩
      · rw [readText_closed_cons slash] at h
        obtain ⟨⟨front, left⟩, read, same⟩ := Option.map_eq_some_iff.mp h
        cases same
        refine List.isChain_cons.mpr ⟨?_, ih read⟩
        intro d _ same
        exact absurd same slash

theorem readLiteral_quoted_iff (s : String) : readLiteral (quoted s) = some (s, "") ↔ Unambiguous s := by
  have reads : readLiteral (quoted s) =
      (readText (closed s.toList)).map fun found => (String.ofList found.1, String.ofList found.2) := by
    rw [readLiteral, toList_quoted]
    rfl
  rw [reads, Option.map_eq_some_iff]
  constructor
  · rintro ⟨⟨front, left⟩, read, same⟩
    obtain ⟨text, nothing⟩ := Prod.mk.inj same
    have whole : s.toList = front := by rw [← text, String.toList_ofList]
    have ended : left = [] := String.ofList_eq_empty_iff.mp nothing
    apply chain_of_readText
    rw [read, whole, ended]
  · intro clear
    refine ⟨_, readText_of_chain clear, ?_⟩
    rw [String.ofList_toList]

end Escaping

section Sharing

def breakChar (c : Char) : List Char := if c = '\n' then ['\\', 'n'] else [c]

def spelledLines (s : String) : String := String.ofList (s.toList.flatMap breakChar)

def guardChar (c : Char) : List Char := if c = '"' then ['\\', '"'] else [c]

theorem guardChar_other {c : Char} (noQuote : c ≠ '"') : guardChar c = [c] := if_neg noQuote

theorem flatMap_escapeChar (s : List Char) : s.flatMap escapeChar = (s.flatMap breakChar).flatMap guardChar := by
  have twice : escapeChar = fun c => (breakChar c).flatMap guardChar := by
    funext c
    by_cases line : c = '\n'
    · subst line
      rfl
    by_cases quote : c = '"'
    · subst quote
      rfl
    rw [escapeChar_other line quote, breakChar, if_neg line, List.flatMap_singleton, guardChar_other quote]
  rw [List.flatMap_assoc, twice]

/-- A quote never comes first, since a backslash guards it. -/
theorem cons_quote_ne (s rest : List Char) : s.flatMap guardChar ≠ '"' :: rest := by
  cases s with
  | nil =>
      intro same
      cases same
  | cons c s =>
      intro same
      by_cases quote : c = '"'
      · subst quote
        cases same
      · rw [List.flatMap_cons, guardChar_other quote] at same
        exact quote (List.cons.inj same).1

def unguard : List Char → List Char
  | '\\' :: '"' :: rest => '"' :: unguard rest
  | c :: rest => c :: unguard rest
  | [] => []

theorem unguard_flatMap_guardChar (s : List Char) : unguard (s.flatMap guardChar) = s := by
  induction s with
  | nil => rfl
  | cons c s ih =>
      by_cases quote : c = '"'
      · subst quote
        exact congrArg ('"' :: ·) ih
      · rw [List.flatMap_cons, guardChar_other quote, List.singleton_append, unguard, ih]
        rintro rest - first
        exact cons_quote_ne s rest first

theorem quoted_eq_iff (s t : String) : quoted s = quoted t ↔ spelledLines s = spelledLines t := by
  rw [← String.toList_inj, toList_quoted, toList_quoted, closed, closed, flatMap_escapeChar, flatMap_escapeChar]
  constructor
  · intro same
    have guarded := congrArg unguard (List.append_cancel_right (List.cons.inj same).2)
    rw [unguard_flatMap_guardChar, unguard_flatMap_guardChar] at guarded
    rw [spelledLines, spelledLines, guarded]
  · intro same
    rw [String.ofList_inj.mp same]

end Sharing

/-- The strings of a program and their literals. A string is pushed as its literal, and every literal in the trees of any
code is that of a string of the table. A literal is read as its string, up to its own end, exactly when no backslash of
the string is taken for an escape; and two strings have one literal exactly when they are the same with their line ends
spelled out. -/
theorem literal_denotes_string_iff (strings identifiers : List String) :
    (∀ (w : Width) (i : Fin strings.length) (fits : i.val < Nat.pow 256 w.bytes),
      decompile strings identifiers
        (programCode [.expression (.literal (.string w i fits) : Expr strings identifiers)]) =
          .ok [.string (quoted (strings.get i))]) ∧
    (∀ code trees, decompile strings identifiers code = .ok trees →
      ∀ n ∈ trees, ∀ text, Node.Within (.string text) n → ∃ s ∈ strings, text = quoted s) ∧
    (∀ s ∈ strings, readLiteral (quoted s) = some (s, "") ↔ Unambiguous s) ∧
    ∀ s ∈ strings, ∀ t ∈ strings, quoted s = quoted t ↔ spelledLines s = spelledLines t := by
  refine ⟨?_, ?_, ?_, ?_⟩
  · intro w i fits
    rw [quoted, escape_eq_spelled]
    exact decompile_programCode _
  · intro code trees h
    exact (grown_fromTable strings identifiers).decompile h
  · intro s _
    exact readLiteral_quoted_iff s
  · intro s _ t _
    exact quoted_eq_iff s t

section Samples

/-- A path whose backslashes are harmless, a line end, a backslash with an `n`, and a backslash. -/
abbrev slashedNames : List String := ["a\\b \"c\"", "\n", "\\n", "\\"]

def slashedSample (i : Fin 4) : Expr slashedNames [] := .literal (.string .byte i (Nat.lt_trans i.isLt (by decide)))

theorem literal_denotes_string_slashedSample :
    decompile slashedNames [] (programCode [.expression (slashedSample 0)]) = .ok [.string "\"a\\b \\\"c\\\"\""] ∧
    readLiteral "\"a\\b \\\"c\\\"\"" = some ("a\\b \"c\"", "") := by
  obtain ⟨pushed, _, reads, _⟩ := literal_denotes_string_iff slashedNames []
  have text : quoted "a\\b \"c\"" = "\"a\\b \\\"c\\\"\"" := by decide +kernel
  rw [← text]
  exact ⟨pushed .byte 0 (by decide), (reads _ List.mem_cons_self).mpr (by decide +kernel)⟩

/-- A backslash takes the closing quote for a part of its string, and one with an `n` is the literal of a line end. -/
theorem literals_of_backslashes :
    (decompile slashedNames [] (programCode [.expression (slashedSample 3)]) = .ok [.string "\"\\\""] ∧
      readLiteral "\"\\\"" = none) ∧
    decompile slashedNames [] (programCode [.expression (slashedSample 1)]) = .ok [.string "\"\\n\""] ∧
    decompile slashedNames [] (programCode [.expression (slashedSample 2)]) = .ok [.string "\"\\n\""] ∧
    readLiteral "\"\\n\"" = some ("\n", "") := by
  have slash : quoted "\\" = "\"\\\"" := by decide +kernel
  have line : quoted "\n" = "\"\\n\"" := by decide +kernel
  have letter : quoted "\\n" = "\"\\n\"" := by decide +kernel
  refine ⟨⟨?_, by decide +kernel⟩, ?_, ?_, by decide +kernel⟩
  · rw [← slash]
    exact decompile_programCode _
  · rw [← line]
    exact decompile_programCode _
  · rw [← letter]
    exact decompile_programCode _

end Samples

end GameData.Script
