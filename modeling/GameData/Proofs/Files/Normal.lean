import Mathlib
import GameData.Proofs.Files.Paths

/-!
Parsed paths.

A parsed path has one of three roots, and its parts are neither empty nor a dot and hold no slash. Such a path is read
back from its text, and so are the paths below it. A text has no more parts than its slashes divide it into, those of the
root apart.
-/
namespace GameData.Path

open Files

/-- A path as it is parsed. -/
structure Normal (p : Path) : Prop where
  root : p.root = "" ∨ p.root = "/" ∨ p.root = "//"
  parts : ∀ s ∈ p.parts, isPart s = true ∧ '/' ∉ s.toList

def below (p : Path) (names : List String) : Path := { p with parts := p.parts ++ names }

@[simp] theorem root_below (p : Path) (names : List String) : (p.below names).root = p.root := rfl

@[simp] theorem parts_below (p : Path) (names : List String) : (p.below names).parts = p.parts ++ names := rfl

theorem foldl_child (names : List String) (p : Path) : names.foldl child p = p.below names := by
  induction names generalizing p with
  | nil => rw [List.foldl_nil, below, List.append_nil]
  | cons name names ih =>
      rw [List.foldl_cons, ih]
      simp [below, child]

theorem part_of_names {names : List String} (each : ∀ n ∈ names, IsName n) :
    ∀ s ∈ names, isPart s = true ∧ '/' ∉ s.toList := by
  intro s mem
  have isName := each s mem
  exact ⟨by simp [isPart, isName.1, isName.2.1], isName.2.2.2⟩

theorem ne_of_part {s : String} (part : isPart s = true ∧ '/' ∉ s.toList) : s ≠ "" ∧ '/' ∉ s.toList := by
  refine ⟨?_, part.2⟩
  rintro rfl
  cases part.1

theorem Normal.below {p : Path} (normal : p.Normal) {names : List String} (each : ∀ n ∈ names, IsName n) :
    (p.below names).Normal := by
  refine ⟨normal.root, ?_⟩
  intro s mem
  rcases List.mem_append.mp mem with mem | mem
  · exact normal.parts s mem
  · exact part_of_names each s mem

section Parsing

def leading (s : String) : Nat := (s.toList.takeWhile (· == '/')).length

def rootOf (slashes : Nat) : String := if slashes = 0 then "" else if slashes = 2 then "//" else "/"

theorem root_parse (s : String) : (parse s).root = rootOf (leading s) := rfl

theorem parts_parse (s : String) : (parse s).parts = (pieces s).filter isPart := rfl

theorem normal_parse (s : String) : (parse s).Normal := by
  constructor
  · rw [root_parse, rootOf]
    split
    · exact .inl rfl
    · split
      · exact .inr (.inr rfl)
      · exact .inr (.inl rfl)
  · intro part mem
    obtain ⟨piece, kept⟩ := List.mem_filter.mp mem
    obtain ⟨cs, split, rfl⟩ := List.mem_map.mp piece
    refine ⟨kept, ?_⟩
    rw [String.toList_ofList]
    exact Tree.not_mem_of_mem_splitOn split

theorem parts_append_slash (a b : String) : (parse (a ++ "/" ++ b)).parts = (parse a).parts ++ (parse b).parts := by
  rw [parts_parse, pieces_append_slash, List.filter_append]
  rfl

theorem parts_slash (s : String) : (parse ("/" ++ s)).parts = (parse s).parts := parts_append_slash "" s

theorem leading_append {a : String} (other : ∃ c ∈ a.toList, c ≠ '/') (b : String) :
    leading (a ++ b) = leading a := by
  have short : (a.toList.takeWhile (· == '/')).length ≠ a.toList.length := by
    obtain ⟨c, mem, ne⟩ := other
    intro whole
    have same := (List.takeWhile_prefix (· == '/')).eq_of_length whole
    have all := List.takeWhile_eq_self_iff.mp same c mem
    exact ne (beq_iff_eq.mp all)
  rw [leading, String.toList_append, List.takeWhile_append, if_neg short]
  rfl

theorem leading_slash (s : String) : leading ("/" ++ s) = leading s + 1 := by
  have chars : ("/" ++ s).toList = '/' :: s.toList := by simp
  rw [leading, chars, List.takeWhile_cons_of_pos (by decide), List.length_cons]
  rfl

theorem leading_eq_zero_iff {s : String} {c : Char} {cs : List Char} (chars : s.toList = c :: cs) :
    leading s = 0 ↔ c ≠ '/' := by
  rw [leading, chars, List.takeWhile_cons]
  split <;> simp_all

/-- A root in front of a text that does not start with a slash. -/
theorem parse_root_append {root s : String} (isRoot : root = "" ∨ root = "/" ∨ root = "//") (plain : leading s = 0) :
    parse (root ++ s) = ⟨root, (parse s).parts⟩ := by
  have twice : "//" ++ s = "/" ++ ("/" ++ s) := by
    rw [← String.append_assoc]
    rfl
  have root_eq : (parse (root ++ s)).root = root := by
    rw [root_parse]
    rcases isRoot with rfl | rfl | rfl
    · rw [String.empty_append, plain]
      rfl
    · rw [leading_slash, plain]
      rfl
    · rw [twice, leading_slash, leading_slash, plain]
      rfl
  have parts_eq : (parse (root ++ s)).parts = (parse s).parts := by
    rcases isRoot with rfl | rfl | rfl
    · rw [String.empty_append]
    · exact parts_slash s
    · rw [twice, parts_slash, parts_slash]
  exact congrArg₂ Path.mk root_eq parts_eq

end Parsing

section Texts

variable {parts : List String} (each : ∀ s ∈ parts, isPart s = true ∧ '/' ∉ s.toList)
include each

theorem head_part {s : String} (mem : s ∈ parts) : ∃ c cs, s.toList = c :: cs ∧ c ≠ '/' := by
  obtain ⟨ne, clean⟩ := ne_of_part (each s mem)
  obtain ⟨c, cs, chars⟩ := List.exists_cons_of_ne_nil (mt String.toList_eq_nil_iff.mp ne)
  refine ⟨c, cs, chars, ?_⟩
  rintro rfl
  rw [chars] at clean
  exact clean List.mem_cons_self

theorem leading_intercalate : leading ("/".intercalate parts) = 0 := by
  cases parts with
  | nil => rfl
  | cons s rest =>
      obtain ⟨c, cs, chars, other⟩ := head_part each List.mem_cons_self
      cases rest with
      | nil =>
          rw [String.intercalate_singleton]
          exact (leading_eq_zero_iff chars).mpr other
      | cons next rest =>
          rw [String.intercalate_cons_cons, String.append_assoc, leading_append ⟨c, by simp [chars], other⟩]
          exact (leading_eq_zero_iff chars).mpr other

theorem parts_intercalate : (parse ("/".intercalate parts)).parts = parts := by
  induction parts with
  | nil => rfl
  | cons s rest ih =>
      obtain ⟨⟨isPart, clean⟩, others⟩ := List.forall_mem_cons.mp each
      have single : (parse s).parts = [s] := by
        rw [parts_parse, pieces_of_not_mem clean, List.filter_cons_of_pos isPart, List.filter_nil]
      cases rest with
      | nil => rw [String.intercalate_singleton, single]
      | cons next rest => rw [String.intercalate_cons_cons, parts_append_slash, single, ih others, List.singleton_append]

end Texts

section Normal

variable {p : Path} (normal : p.Normal)
include normal

theorem parse_intercalate : parse (p.root ++ "/".intercalate p.parts) = p := by
  rw [parse_root_append normal.root (leading_intercalate normal.parts), parts_intercalate normal.parts]

omit normal in
theorem text_of_named (named : p.root ≠ "" ∨ p.parts ≠ []) : p.text = p.root ++ "/".intercalate p.parts := by
  have some : (p.root == "" && p.parts.isEmpty) = false := by
    rcases named with ne | ne <;> simp [ne]
  rw [text, some, if_neg Bool.false_ne_true]

omit normal in
theorem text_of_dot (root : p.root = "") (none : p.parts = []) : p.text = "." := by
  rw [text, root, none]
  rfl

/-- A parsed path is read back from its text. -/
theorem parse_text : parse p.text = p := by
  by_cases named : p.root ≠ "" ∨ p.parts ≠ []
  · rw [text_of_named named]
    exact parse_intercalate normal
  · push Not at named
    rw [text_of_dot named.1 named.2]
    exact congrArg₂ Path.mk named.1.symm named.2.symm

/-- The text of a path does not end in a slash, unless the path is a root alone. -/
theorem text_last (solid : p.root = "" ∨ p.parts ≠ []) : ∃ front c, p.text.toList = front ++ [c] ∧ c ≠ '/' := by
  by_cases none : p.parts = []
  · rw [text_of_dot (solid.resolve_right (not_not_intro none)) none]
    exact ⟨[], '.', by decide, by decide⟩
  · obtain ⟨front, c, ends, other⟩ := last_intercalate none fun s mem => ne_of_part (normal.parts s mem)
    refine ⟨p.root.toList ++ front, c, ?_, other⟩
    rw [text_of_named (.inr none), String.toList_append, ends, List.append_assoc]

omit normal in
theorem text_of_bare (rooted : p.root ≠ "") (none : p.parts = []) : p.text = p.root := by
  rw [text_of_named (.inl rooted), none, String.intercalate_nil, String.append_empty]

theorem text_ne : p.text ≠ "" := by
  by_cases solid : p.root = "" ∨ p.parts ≠ []
  · obtain ⟨front, c, ends, _⟩ := text_last normal solid
    intro empty
    rw [empty] at ends
    simp at ends
  · push Not at solid
    rw [text_of_bare solid.1 solid.2]
    exact solid.1

theorem gap_of_solid (solid : p.root = "" ∨ p.parts ≠ []) : gap p.text = "/" := by
  obtain ⟨front, c, ends, other⟩ := text_last normal solid
  exact gap_of_last ends other

theorem gap_of_bare (rooted : p.root ≠ "") (none : p.parts = []) : gap p.text = "" := by
  rw [text_of_bare rooted none, gap, endsWith_slash, if_pos]
  rcases normal.root.resolve_left rooted with one | two
  · rw [one]
    decide
  · rw [two]
    decide

variable {names : List String} (some : names ≠ []) (each : ∀ n ∈ names, IsName n)
include some

omit normal in
theorem text_below_of_bare (none : p.parts = []) : (p.below names).text = p.root ++ Tree.Place.text names := by
  rw [text_of_named (.inr (by simp [some])), root_below, parts_below, none, List.nil_append]
  rfl

omit normal in
theorem text_below_of_named (named : p.parts ≠ []) :
    (p.below names).text = p.text ++ "/" ++ Tree.Place.text names := by
  rw [text_of_named (.inr (by simp [named])), text_of_named (.inr named), root_below, parts_below,
    String.intercalate_append_of_ne_nil named some, Tree.Place.text]
  simp only [String.append_assoc]

include each

omit normal some in
theorem parts_text_names : (parse (Tree.Place.text names)).parts = names :=
  parts_intercalate (part_of_names each)

omit some in
/-- Names behind a path and a slash are read as the path below it, unless the path is a root alone. -/
theorem parse_text_slash (solid : p.root = "" ∨ p.parts ≠ []) :
    parse (p.text ++ "/" ++ Tree.Place.text names) = p.below names := by
  have root : (parse (p.text ++ "/" ++ Tree.Place.text names)).root = p.root := by
    obtain ⟨front, c, ends, other⟩ := text_last normal solid
    rw [root_parse, String.append_assoc, leading_append ⟨c, by simp [ends], other⟩, ← root_parse, parse_text normal]
  have parts : (parse (p.text ++ "/" ++ Tree.Place.text names)).parts = p.parts ++ names := by
    rw [parts_append_slash, parse_text normal, parts_text_names each]
  exact congrArg₂ Path.mk root parts

/-- Names that are joined to the text of a path one by one are read as the path below it. -/
theorem parse_pathBelow : parse (pathBelow p.text names) = p.below names := by
  rw [pathBelow_eq (text_ne normal) some each]
  by_cases solid : p.root = "" ∨ p.parts ≠ []
  · rw [gap_of_solid normal solid]
    exact parse_text_slash normal each solid
  · push Not at solid
    rw [gap_of_bare normal solid.1 solid.2, text_of_bare solid.1 solid.2, String.append_empty,
      ← text_below_of_bare some solid.2]
    exact parse_text (normal.below each)

omit some each in
/-- A name below a path is one more step. -/
theorem locate_below (t : Tree) {name : String} (isName : IsName name) :
    t.locate (p.below [name]).text = t.locate p.text >>= fun P => t.step P name := by
  have some : [name] ≠ [] := by simp
  by_cases none : p.parts = []
  · rw [text_below_of_bare some none, Tree.text_singleton]
    by_cases dot : p.root = ""
    · have here : t.locate "." = .ok [] := by
        have way : Tree.route "." = ["."] := by cbv
        rw [Tree.locate_of_ne (by decide), way, List.foldlM_cons, Tree.step, Tree.get?_nil]
        rfl
      rw [dot, String.empty_append, Tree.locate_name isName, text_of_dot dot none, here]
      exact ((Tree.step_name isName).mpr ⟨Tree.get?_nil t, rfl⟩).symm
    · rw [← Tree.locate_join (text_ne normal) isName, join_name (text_ne normal) isName, gap_of_bare normal dot none,
        text_of_bare dot none, String.append_empty]
  · rw [text_below_of_named some none, Tree.text_singleton, ← Tree.locate_join (text_ne normal) isName,
      join_name (text_ne normal) isName, gap_of_solid normal (.inr none)]

end Normal

section Counting

def slashes (s : String) : Nat := s.toList.count '/'

@[simp] theorem slashes_append (a b : String) : slashes (a ++ b) = slashes a + slashes b := by
  simp [slashes]

theorem length_splitOn (cs : List Char) : (cs.splitOn '/').length = cs.count '/' + 1 := by
  induction cs with
  | nil => rfl
  | cons c cs ih =>
      rw [List.splitOn_cons_eq_if_modifyHead, List.count_cons]
      split
      · rw [List.length_cons, ih]
      · rw [List.length_modifyHead, ih, Nat.add_zero]

/-- The parts of a text, and the slashes in front of it, are no more than its slashes and one. -/
theorem parts_add_leading_le (cs : List Char) :
    (parse (String.ofList cs)).parts.length + leading (String.ofList cs) ≤ slashes (String.ofList cs) + 1 := by
  induction cs with
  | nil => decide
  | cons c cs ih =>
      by_cases slash : c = '/'
      · have front : String.ofList (c :: cs) = "/" ++ String.ofList cs := by
          rw [← String.toList_inj]
          simp [slash]
        rw [front, parts_slash, leading_slash, slashes_append]
        have one : slashes "/" = 1 := by decide
        omega
      · have plain : leading (String.ofList (c :: cs)) = 0 :=
          (leading_eq_zero_iff (String.toList_ofList ..)).mpr slash
        rw [plain, Nat.add_zero, parts_parse]
        refine (List.length_filter_le _ _).trans ?_
        rw [pieces, List.length_map, length_splitOn]
        rfl

theorem length_rootOf_le (n : Nat) : (rootOf n).length ≤ n := by
  rw [rootOf]
  split
  · exact Nat.zero_le _
  · split
    · rename_i two
      rw [two]
      decide
    · have one : "/".length = 1 := by decide
      omega

theorem parts_add_root_le (s : String) : (parse s).parts.length + (parse s).root.length ≤ slashes s + 1 := by
  have bound := parts_add_leading_le s.toList
  rw [String.ofList_toList] at bound
  have root := length_rootOf_le (leading s)
  rw [root_parse]
  omega

theorem slashes_intercalate {parts : List String} (some : parts ≠ []) (clean : ∀ s ∈ parts, '/' ∉ s.toList) :
    slashes ("/".intercalate parts) + 1 = parts.length := by
  induction parts with
  | nil => exact absurd rfl some
  | cons s rest ih =>
      obtain ⟨here, later⟩ := List.forall_mem_cons.mp clean
      have none : slashes s = 0 := List.count_eq_zero.mpr here
      cases rest with
      | nil => rw [String.intercalate_singleton, none, List.length_singleton]
      | cons next rest =>
          have one : slashes "/" = 1 := by decide
          have rest := ih (by simp) later
          rw [String.intercalate_cons_cons, slashes_append, slashes_append, none, List.length_cons]
          omega

theorem Normal.slashes_root {p : Path} (normal : p.Normal) : slashes p.root = p.root.length := by
  rcases normal.root with empty | one | two
  · rw [empty]
    decide
  · rw [one]
    decide
  · rw [two]
    decide

/-- In the text of a parsed path every slash counts. -/
theorem Normal.slashes_text {p : Path} (normal : p.Normal) (named : p.parts ≠ []) :
    slashes p.text + 1 = p.root.length + p.parts.length := by
  rw [text_of_named (.inr named), slashes_append, normal.slashes_root, Nat.add_assoc,
    slashes_intercalate named fun s mem => (normal.parts s mem).2]

end Counting

end GameData.Path
