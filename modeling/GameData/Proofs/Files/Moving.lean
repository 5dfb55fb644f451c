import Mathlib
import GameData.Command.Clips
import GameData.Proofs.Files.Normal
import GameData.Proofs.Files.Visits

/-!
Files that are taken from one folder to another.

The path of a file below a folder is moved by exchanging the text of the folder, where it is found first, for the text
of another. This exchanges the folders themselves where the first has a name and the second is not a root alone, and
where both are dots or both are roots alone. Otherwise no path is moved to where it belongs: the text of the dot is no
part of a path below it, and the text of a root brings its slashes along.
-/
namespace GameData

theorem cutAt_eq_some {old s a b : List Char} (cut : cutAt old s = some (a, b)) : s = a ++ old ++ b := by
  induction s generalizing a with
  | nil =>
      rw [cutAt] at cut
      split at cut
      · rename_i none
        rw [List.isEmpty_iff.mp none]
        cases cut
        rfl
      · cases cut
  | cons c cs ih =>
      rw [cutAt] at cut
      split at cut
      · rename_i front
        obtain ⟨rest, split⟩ := List.isPrefixOf_iff_prefix.mp front
        cases cut
        rw [← split, List.drop_left, List.nil_append]
      · obtain ⟨⟨before, after⟩, later, same⟩ := Option.map_eq_some_iff.mp cut
        cases same
        rw [ih later]
        rfl

/-- Either nothing changes or one occurrence is replaced. -/
theorem replaceFirst_cases (s old new : String) :
    replaceFirst s old new = s ∨ ∃ a b, s = a ++ old ++ b ∧ replaceFirst s old new = a ++ new ++ b := by
  rw [replaceFirst]
  cases cut : cutAt old.toList s.toList with
  | none => exact .inl rfl
  | some halves =>
      refine .inr ⟨String.ofList halves.1, String.ofList halves.2, ?_, rfl⟩
      rw [← String.toList_inj]
      simpa using cutAt_eq_some cut

theorem replaceFirst_self (s old : String) : replaceFirst s old old = s := by
  rcases replaceFirst_cases s old old with same | ⟨a, b, split, same⟩
  · exact same
  · rw [same, ← split]

namespace Path

open Files

section Suffixes

/-- What is left of a name without its last extension: a point with something in front of it, and something without
points after it. -/
def IsStem (name stem : String) : Prop :=
  (∃ x, name = stem ++ "." ++ x ∧ stem ≠ "" ∧ x ≠ "" ∧ '.' ∉ x.toList) ∨
    (stem = name ∧ ∀ a x, name = a ++ "." ++ x → a = "" ∨ x = "" ∨ '.' ∈ x.toList)

/-- What a path can get for a suffix: nothing, or a point and more, without slashes. -/
def IsSuffix (s : String) : Prop := '/' ∉ s.toList ∧ (s = "" ∨ s.startsWith "." = true ∧ s ≠ ".")

theorem splitSuffix_of_not_mem {name : String} (clean : '.' ∉ name.toList) : splitSuffix name = (name, "") := by
  have whole : name.toList.reverse.takeWhile (· != '.') = name.toList.reverse := by
    rw [List.takeWhile_eq_self_iff]
    intro c mem
    rw [bne_iff_ne]
    rintro rfl
    exact clean (List.mem_reverse.mp mem)
  simp only [splitSuffix, whole, List.length_reverse, true_or, if_true]

theorem splitSuffix_point (a : String) {x : String} (clean : '.' ∉ x.toList) :
    splitSuffix (a ++ "." ++ x) = if a = "" ∨ x = "" then (a ++ "." ++ x, "") else (a, "." ++ x) := by
  have chars : (a ++ "." ++ x).toList = a.toList ++ '.' :: x.toList := by simp
  have tail : (a ++ "." ++ x).toList.reverse.takeWhile (· != '.') = x.toList.reverse := by
    have before : ∀ c ∈ x.toList.reverse, (c != '.') = true := by
      intro c mem
      rw [bne_iff_ne]
      rintro rfl
      exact clean (List.mem_reverse.mp mem)
    rw [chars, List.reverse_append, List.reverse_cons, List.append_assoc, List.takeWhile_append_of_pos before,
      List.singleton_append, List.takeWhile_cons_of_neg (by decide), List.append_nil]
  have front : (a ++ "." ++ x).toList.length - x.toList.length = a.toList.length + 1 := by
    rw [chars, List.length_append, List.length_cons]
    omega
  by_cases none : a = "" ∨ x = ""
  · rw [splitSuffix, if_pos none]
    simp only [tail, List.length_reverse, front]
    rw [if_pos]
    rcases none with rfl | rfl
    · exact .inr (.inr (by simp))
    · exact .inr (.inl (by simp))
  · obtain ⟨some, more⟩ := not_or.mp none
    have lengths : 0 < a.toList.length ∧ 0 < x.toList.length := by
      simp only [List.length_pos_iff, ne_eq, String.toList_eq_nil_iff]
      exact ⟨some, more⟩
    have divides : ¬ (x.toList.length = (a ++ "." ++ x).toList.length ∨ x.toList.reverse.isEmpty = true ∨
        a.toList.length + 1 ≤ 1) := by
      rw [List.isEmpty_iff_length_eq_zero, List.length_reverse]
      omega
    rw [splitSuffix, if_neg none]
    simp only [tail, List.length_reverse, front]
    rw [if_neg divides, Nat.add_sub_cancel, chars, List.take_left, List.drop_left, String.ofList_toList]
    refine congrArg (Prod.mk a) ?_
    rw [← String.toList_inj]
    simp

theorem isStem_splitSuffix (name : String) : IsStem name (splitSuffix name).1 := by
  have whole (same : splitSuffix name = (name, "")) : IsStem name (splitSuffix name).1 := by
    rw [same]
    refine .inr ⟨rfl, ?_⟩
    intro a x split
    by_contra! divided
    rw [split, splitSuffix_point a divided.2.2, if_neg (not_or.mpr ⟨divided.1, divided.2.1⟩)] at same
    have ends := congrArg Prod.snd same
    simp at ends
  rcases last_mark '.' name with clean | ⟨a, x, split, clean⟩
  · exact whole (splitSuffix_of_not_mem clean)
  · have point : splitSuffix name = if a = "" ∨ x = "" then (name, "") else (a, "." ++ x) := by
      rw [split]
      exact splitSuffix_point a clean
    by_cases none : a = "" ∨ x = ""
    · rw [if_pos none] at point
      exact whole point
    · rw [if_neg none] at point
      rw [point]
      exact .inl ⟨x, split, (not_or.mp none).1, (not_or.mp none).2, clean⟩

/-- A point in front of a name is a part of its stem. -/
theorem splitSuffix_point_ne (c : String) : (splitSuffix ("." ++ c)).1 ≠ (splitSuffix c).1 := by
  have longer (s : String) : "." ++ s ≠ s := by
    intro same
    have lengths := congrArg String.length same
    simp at lengths
  rcases last_mark '.' c with clean | ⟨a, x, split, clean⟩
  · have front := splitSuffix_point "" clean
    rw [if_pos (.inl rfl), String.empty_append] at front
    rw [front, splitSuffix_of_not_mem clean]
    exact longer c
  · change c = a ++ "." ++ x at split
    have first := splitSuffix_point ("." ++ a) clean
    have second := splitSuffix_point a clean
    have front : "." ++ a ++ "." ++ x = "." ++ c := by
      rw [split]
      simp only [String.append_assoc]
    rw [front] at first
    rw [← split] at second
    by_cases none : x = ""
    · rw [first, second, if_pos (.inr none), if_pos (.inr none)]
      exact longer c
    · rw [first, second, if_neg (by simp [none])]
      by_cases empty : a = ""
      · -- The point that leads the name divides it once another stands in front.
        rw [if_pos (.inl empty), split, empty]
        intro same
        have lengths := congrArg String.length same
        simp at lengths
        exact none lengths
      · rw [if_neg (by simp [none, empty])]
        exact longer a

theorem withSuffix_of_name {p : Path} {front : List String} {name suffix : String} (valid : IsSuffix suffix)
    (parts : p.parts = front ++ [name]) (ne : name ≠ "") :
    p.withSuffix suffix = .ok { p with parts := front ++ [(splitSuffix name).1 ++ suffix] } := by
  have last : p.name = name := by rw [Path.name, parts, List.getLast?_concat, Option.getD_some]
  have suits : ((suffix != "" && !suffix.startsWith ".") || suffix == ".") = false := by
    rcases valid.2 with rfl | ⟨point, more⟩
    · decide
    · simp [point, more]
  rw [withSuffix, if_neg (by simpa using valid.1), suits, if_neg Bool.false_ne_true, last, if_neg (by simpa using ne),
    parts, List.dropLast_concat]

theorem withSuffix_eq_ok {p q : Path} {suffix : String} (done : p.withSuffix suffix = .ok q) :
    ∃ front name, p.parts = front ++ [name] ∧ q = { p with parts := front ++ [(splitSuffix name).1 ++ suffix] } := by
  rw [withSuffix] at done
  split_ifs at done with slash odd empty
  rcases List.eq_nil_or_concat' p.parts with none | ⟨front, name, parts⟩
  · rw [Path.name, none] at empty
    exact absurd rfl empty
  · refine ⟨front, name, parts, ?_⟩
    rw [Path.name, parts, List.getLast?_concat, List.dropLast_concat, Option.getD_some] at done
    exact (Except.ok.inj done).symm

end Suffixes

section Exchange

/-- Two folders that are exchanged with their texts. -/
def Exchanges (D T : Path) : Prop :=
  (D.parts ≠ [] ∧ (T.root = "" ∨ T.parts ≠ [])) ∨ (D.parts = [] ∧ T.parts = [] ∧ (D.root = "" ↔ T.root = ""))

instance (D T : Path) : Decidable (D.Exchanges T) := inferInstanceAs (Decidable (_ ∨ _))

/-- The text of a path below one folder with the text of another in place of that of the first. -/
def exchanged (D T : Path) (names : List String) : String :=
  replaceFirst (D.below names).text D.text T.text

variable {D T : Path} (source : D.Normal) (target : T.Normal) {names : List String} (some : names ≠ [])
  (each : ∀ n ∈ names, IsName n)

include some in
theorem exchanged_of_named (named : D.parts ≠ []) :
    exchanged D T names = T.text ++ "/" ++ Tree.Place.text names := by
  rw [exchanged, text_below_of_named some named, String.append_assoc, replaceFirst_append, ← String.append_assoc]

include some in
theorem exchanged_of_root (rooted : D.root ≠ "") (none : D.parts = []) :
    exchanged D T names = T.text ++ Tree.Place.text names := by
  rw [exchanged, text_below_of_bare some none, text_of_bare rooted none, replaceFirst_append]

include source target some each in
theorem parse_exchanged (exchanges : D.Exchanges T) : parse (exchanged D T names) = T.below names := by
  rcases exchanges with ⟨named, solid⟩ | ⟨noSource, noTarget, both⟩
  · rw [exchanged_of_named some named]
    exact parse_text_slash target each solid
  · by_cases rooted : D.root = ""
    · have same : D = T := by
        rw [← parse_text source, ← parse_text target, text_of_dot rooted noSource, text_of_dot (both.mp rooted) noTarget]
      rw [exchanged, same, replaceFirst_self]
      exact parse_text (target.below each)
    · have rooted' : T.root ≠ "" := fun empty => rooted (both.mpr empty)
      rw [exchanged_of_root some rooted noSource, text_of_bare rooted' noTarget, ← text_below_of_bare some noTarget]
      exact parse_text (target.below each)

include target some each in
/-- The slash behind the first folder is one too many behind a root. -/
theorem root_exchanged_ne (named : D.parts ≠ []) (rooted : T.root ≠ "") (none : T.parts = []) :
    (parse (exchanged D T names)).root ≠ T.root := by
  have plain : leading (Tree.Place.text names) = 0 := leading_intercalate (part_of_names each)
  rw [exchanged_of_named some named, text_of_bare rooted none, root_parse]
  rcases target.root.resolve_left rooted with one | two
  · rw [one, String.append_assoc, leading_slash, leading_slash, plain]
    decide
  · have thrice : "//" ++ "/" ++ Tree.Place.text names = "/" ++ ("/" ++ ("/" ++ Tree.Place.text names)) := by
      simp only [← String.append_assoc]
      rfl
    rw [two, thrice, leading_slash, leading_slash, leading_slash, plain]
    decide

include source target some each in
/-- With the text of a dot or a root in front of them the names are not divided from what takes its place, so that there
are too few parts. -/
theorem parts_exchanged_ne (none : D.parts = []) (named : T.parts ≠ []) (root : (parse (exchanged D T names)).root = T.root) :
    (parse (exchanged D T names)).parts.length ≠ T.parts.length + names.length := by
  intro lengths
  have below := source.below each
  have bound := parts_add_root_le (exchanged D T names)
  rw [root, lengths] at bound
  have before : slashes (D.below names).text + 1 = D.root.length + names.length := by
    have count := below.slashes_text (by simp [some])
    rwa [root_below, parts_below, none, List.nil_append] at count
  have after := target.slashes_text named
  have folder : slashes D.text = D.root.length := by
    by_cases rooted : D.root = ""
    · rw [text_of_dot rooted none, rooted]
      decide
    · rw [text_of_bare rooted none, source.slashes_root]
  rcases replaceFirst_cases (D.below names).text D.text T.text with same | ⟨a, b, split, same⟩
  · rw [exchanged, same, parse_text below, parts_below, none, List.nil_append] at lengths
    have some' := List.length_pos_iff.mpr named
    omega
  · rw [split, slashes_append, slashes_append] at before
    rw [exchanged, same, slashes_append, slashes_append] at bound
    omega

/-- A point that takes the place of a root is read as a part of the first name. -/
theorem parse_exchanged_point {c : String} {rest : List String} (each : ∀ n ∈ c :: rest, IsName n) (rooted : D.root ≠ "")
    (noSource : D.parts = []) (dot : T.root = "") (noTarget : T.parts = []) :
    parse (exchanged D T (c :: rest)) = ⟨"", ("." ++ c) :: rest⟩ := by
  obtain ⟨first, others⟩ := List.forall_mem_cons.mp (part_of_names each)
  have part : isPart ("." ++ c) = true ∧ '/' ∉ ("." ++ c).toList := by
    refine ⟨?_, by simpa using first.2⟩
    have more : "." ++ c ≠ "." := by
      intro same
      exact (each c List.mem_cons_self).1 (by simpa using congrArg String.length same)
    simp [isPart, more]
  have normal : Normal ⟨"", ("." ++ c) :: rest⟩ := ⟨.inl rfl, List.forall_mem_cons.mpr ⟨part, others⟩⟩
  have text : exchanged D T (c :: rest) = Path.text ⟨"", ("." ++ c) :: rest⟩ := by
    rw [exchanged_of_root (List.cons_ne_nil _ _) rooted noSource, text_of_dot dot noTarget,
      text_of_named (.inr (List.cons_ne_nil _ _)), String.empty_append, String.intercalate_cons_append]
    rfl
  rw [text]
  exact parse_text normal

theorem exists_point {n b : String} {rest : List String} (ne : n ≠ "") (split : "/".intercalate (n :: rest) = "." ++ b) :
    ∃ c, n = "." ++ c ∧ b = "/".intercalate (c :: rest) := by
  obtain ⟨tail, front⟩ : ∃ tail, "/".intercalate (n :: rest) = n ++ tail := by
    cases rest with
    | nil => exact ⟨"", by rw [String.intercalate_singleton, String.append_empty]⟩
    | cons next rest => exact ⟨_, by rw [String.intercalate_cons_cons, String.append_assoc]⟩
  obtain ⟨x, xs, chars⟩ := List.exists_cons_of_ne_nil (mt String.toList_eq_nil_iff.mp ne)
  have point : x = '.' := by
    have first := congrArg (fun s => s.toList.head?) (front.symm.trans split)
    simpa [chars] using first
  have name : n = "." ++ String.ofList xs := by
    rw [← String.toList_inj, chars, point]
    simp
  refine ⟨String.ofList xs, name, ?_⟩
  rw [name, String.intercalate_cons_append] at split
  simpa [← String.toList_inj] using split.symm

include some each in
/-- A root that takes the place of a point is read as the root only if it does so in front, and takes the point from the
first name. -/
theorem parse_exchanged_root (dot : D.root = "") (noSource : D.parts = []) (target : T.Normal) (rooted : T.root ≠ "")
    (noTarget : T.parts = []) (root : (parse (exchanged D T names)).root = T.root) :
    ∃ c rest, names = ("." ++ c) :: rest ∧ parse (exchanged D T names) = ⟨T.root, c :: rest⟩ := by
  have below : (D.below names).text = "/".intercalate names := by
    rw [text_below_of_bare some noSource, dot, String.empty_append]
    rfl
  have plain : leading ("/".intercalate names) = 0 := leading_intercalate (part_of_names each)
  have slashed : leading (exchanged D T names) ≠ 0 := by
    intro none
    rw [root_parse, none] at root
    exact rooted root.symm
  rw [exchanged, below, text_of_dot dot noSource, text_of_bare rooted noTarget] at slashed ⊢
  rcases replaceFirst_cases ("/".intercalate names) "." T.root with same | ⟨a, b, split, same⟩
  · rw [same] at slashed
    exact absurd plain slashed
  rw [same] at slashed ⊢
  -- With a character in front that is no slash there would be no root.
  have none : a = "" := by
    by_contra ne
    obtain ⟨c, cs, chars⟩ := List.exists_cons_of_ne_nil (mt String.toList_eq_nil_iff.mp ne)
    have before : ("/".intercalate names).toList = c :: (cs ++ ("." ++ b).toList) := by
      rw [split]
      simp [chars]
    have after : (a ++ T.root ++ b).toList = c :: (cs ++ (T.root ++ b).toList) := by simp [chars]
    exact slashed ((leading_eq_zero_iff after).mpr ((leading_eq_zero_iff before).mp plain))
  rw [none, String.empty_append] at split ⊢
  obtain ⟨n, rest, rfl⟩ := List.exists_cons_of_ne_nil some
  obtain ⟨isName, others⟩ := List.forall_mem_cons.mp each
  obtain ⟨c, rfl, rfl⟩ := exists_point isName.1 split
  have part : isPart c = true ∧ '/' ∉ c.toList := by
    obtain ⟨_, notDot, notDots, clean⟩ := isName
    refine ⟨?_, by simpa using clean⟩
    have ne : c ≠ "" := by
      rintro rfl
      exact notDot rfl
    have other : c ≠ "." := by
      rintro rfl
      exact notDots rfl
    simp [isPart, ne, other]
  have normal : Normal ⟨T.root, c :: rest⟩ := ⟨target.root, List.forall_mem_cons.mpr ⟨part, part_of_names others⟩⟩
  have read := parse_intercalate normal
  exact ⟨c, rest, rfl, read⟩

/-- A path with the names in front and a last name of the same stem. -/
def Resembles (p T : Path) (front : List String) (name : String) : Prop :=
  p.root = T.root ∧ ∃ other, p.parts = T.parts ++ front ++ [other] ∧ (splitSuffix other).1 = (splitSuffix name).1

theorem resembles_of_withSuffix {p T : Path} {front : List String} {name suffix : String}
    (done : p.withSuffix suffix = .ok (T.below (front ++ [(splitSuffix name).1 ++ suffix]))) : Resembles p T front name := by
  obtain ⟨before, other, parts, same⟩ := withSuffix_eq_ok done
  obtain ⟨root, names⟩ := Path.mk.inj same
  rw [← List.append_assoc] at names
  obtain ⟨fronts, lasts⟩ := List.append_inj' names rfl
  refine ⟨root.symm, other, ?_, ?_⟩
  · rw [parts, ← fronts]
  · simpa [← String.toList_inj] using (List.cons.inj lasts).1.symm

/-- A point makes a difference to the names even when only the stem of the last one counts. -/
theorem stem_ne_of_point {c : String} {rest front : List String} {other name : String}
    (shorter : c :: rest = front ++ [other]) (longer : ("." ++ c) :: rest = front ++ [name]) :
    (splitSuffix name).1 ≠ (splitSuffix other).1 := by
  cases front with
  | nil =>
      cases shorter
      cases longer
      exact splitSuffix_point_ne c
  | cons n front =>
      have same : "." ++ c = c := (List.cons.inj longer).1.trans (List.cons.inj shorter).1.symm
      have lengths := congrArg String.length same
      simp at lengths

include source target in
theorem exchanges_of_resembles {front : List String} {name : String} (each : ∀ n ∈ front ++ [name], IsName n)
    (resembles : Resembles (parse (exchanged D T (front ++ [name]))) T front name) : D.Exchanges T := by
  obtain ⟨root, other, parts, stem⟩ := resembles
  have some : front ++ [name] ≠ [] := by simp
  by_cases noSource : D.parts = []
  · by_cases noTarget : T.parts = []
    · rw [noTarget, List.nil_append] at parts
      refine .inr ⟨noSource, noTarget, ?_⟩
      by_cases dot : D.root = "" <;> by_cases rooted : T.root = ""
      · exact iff_of_true dot rooted
      · obtain ⟨c, rest, names, path⟩ := parse_exchanged_root some each dot noSource target rooted noTarget root
        rw [path] at parts
        exact absurd stem.symm (stem_ne_of_point parts names.symm)
      · obtain ⟨c, rest, names⟩ := List.exists_cons_of_ne_nil some
        rw [names] at each parts
        rw [parse_exchanged_point each dot noSource rooted noTarget] at parts
        exact absurd stem (stem_ne_of_point names.symm parts)
      · exact iff_of_false dot rooted
    · refine absurd ?_ (parts_exchanged_ne source target some each noSource noTarget root)
      rw [parts]
      simp
  · refine .inl ⟨noSource, ?_⟩
    by_contra! bare
    exact root_exchanged_ne target some each noSource bare.1 bare.2 root

section Mirrored

variable {front : List String} {name : String} (isName : ∀ n ∈ front ++ [name], IsName n)
include source target isName

theorem parse_exchanged_iff :
    parse (exchanged D T (front ++ [name])) = T.below (front ++ [name]) ↔ D.Exchanges T := by
  constructor
  · intro same
    refine exchanges_of_resembles source target isName ⟨?_, name, ?_, rfl⟩
    · rw [same, root_below]
    · rw [same, parts_below, List.append_assoc]
  · exact parse_exchanged source target (by simp) isName

theorem withSuffix_exchanged_iff {suffix : String} (valid : IsSuffix suffix) :
    (parse (exchanged D T (front ++ [name]))).withSuffix suffix =
      .ok (T.below (front ++ [(splitSuffix name).1 ++ suffix])) ↔ D.Exchanges T := by
  constructor
  · intro moves
    exact exchanges_of_resembles source target isName (resembles_of_withSuffix moves)
  · intro exchanges
    have ne : name ≠ "" := (isName name (by simp)).1
    have parts : (T.below (front ++ [name])).parts = T.parts ++ front ++ [name] := by simp
    rw [(parse_exchanged_iff source target isName).mpr exchanges, withSuffix_of_name valid parts ne, List.append_assoc]
    rfl

end Mirrored

end Exchange

section Walk

open GameData.Command

theorem oneAccepts_all : Pattern.oneAccepts ["*"] = fun _ => true := by
  funext name
  have plain : Pattern.Plain "".toList := by simp [Pattern.Plain]
  have accepts : Pattern.accepts ("*" ++ "") name = true := (Pattern.accepts_star plain name).mpr (by simp)
  rw [String.append_empty] at accepts
  rw [Pattern.oneAccepts, List.any_cons, accepts, Bool.true_or]

theorem foldlM_found {α : Type} (f : α → Path) (rels : List α) (found : List Path) (s : Session) :
    (rels.foldlM (fun found rel => (pure (found ++ [f rel]) : Shell (List Path))) found).fill s =
      (.ok (found ++ rels.map f), s) := by
  induction rels generalizing found with
  | nil =>
      rw [List.map_nil, List.append_nil]
      rfl
  | cons rel rels ih =>
      rw [List.foldlM_cons, pure_bind, ih, List.map_cons, List.append_assoc]
      rfl

/-- The files below a folder are found as paths below it. -/
theorem fill_filesBelow {s : Session} (sound : s.tree.Sound) {D : Path} (normal : D.Normal) {S : Place}
    (way : s.tree.locate D.text = .ok S) :
    (Clips.filesBelow D.text).fill s = (.ok ((s.tree.sources (fun _ => true) S).map D.below), s) := by
  have spares : Shell.Spares (Pattern.oneAccepts ["*"]) S D.text s.tree
      (fun found p => (pure (found ++ [parse p]) : Shell (List Path))) fun _ s' => s'.tree = s.tree := by
    refine .of_steady sound (fun _ => rfl) ?_ ?_
    · intro s' same
      rw [same]
      exact .refl _ _ sound
    · intro found rel s' found' s'' _ same run
      cases run
      exact same
  rw [Clips.filesBelow, Shell.fill_foldFiles sound (text_ne normal) way spares, foldlM_found fun rel => parse (pathBelow D.text rel),
    List.nil_append, oneAccepts_all]
  congr 2
  refine List.map_congr_left ?_
  intro rel mem
  have source := sound.mem_sources_iff.mp mem
  exact parse_pathBelow normal source.ne_nil (sound.isName_of_isSource source)

end Walk

/-- The path of a file below a folder is mirrored below another one, with the suffix in place of its last extension,
exactly if the two folders are exchanged with their texts, whatever the file is. -/
theorem moved_mirrors_iff (d e : String) {suffix : String} (valid : IsSuffix suffix) :
    (∀ (s : Session) (S : Place), s.tree.Sound → s.tree.locate (parse d).text = .ok S →
      ∃ found : List Place, (Command.Clips.filesBelow (parse d).text).fill s =
          (.ok (found.map fun names => names.foldl child (parse d)), s) ∧
        ∀ names, names ∈ found ↔ s.tree.IsSource (fun _ => true) S names) ∧
    ∀ (front : List String) (name : String), (∀ n ∈ front ++ [name], IsName n) →
      let file := (front ++ [name]).foldl child (parse d)
      ∃ stem, IsStem name stem ∧
        (moved file (parse d) (parse e) suffix = .ok ((parse e).below (front ++ [stem ++ suffix])) ↔
          (parse d).Exchanges (parse e)) ∧
        (parse (replaceFirst file.text (parse d).text (parse e).text) = (parse e).below (front ++ [name]) ↔
          (parse d).Exchanges (parse e)) := by
  have source := normal_parse d
  have target := normal_parse e
  constructor
  · intro s S sound way
    refine ⟨_, ?_, fun names => sound.mem_sources_iff⟩
    rw [fill_filesBelow sound source way]
    simp only [foldl_child]
  · intro front name each file
    have text : replaceFirst file.text (parse d).text (parse e).text = exchanged (parse d) (parse e) (front ++ [name]) := by
      rw [exchanged, ← foldl_child]
    rw [moved, text]
    exact ⟨(splitSuffix name).1, isStem_splitSuffix name, withSuffix_exchanged_iff source target each valid,
      parse_exchanged_iff source target each⟩

/-- A folder whose name occurs again below it. -/
theorem moved_mirrors_iff_nested : IsSuffix ".wav" ∧ (∀ n ∈ ["a"] ++ ["a.b.c"], IsName n) ∧
    ∃ stem, IsStem "a.b.c" stem ∧
      moved ((["a"] ++ ["a.b.c"]).foldl child (parse "a")) (parse "a") (parse "/b") ".wav" =
        .ok ((parse "/b").below (["a"] ++ [stem ++ ".wav"])) := by
  have valid : IsSuffix ".wav" := by
    refine ⟨by decide, .inr ⟨?_, by decide⟩⟩
    cbv
  have names : ∀ n ∈ ["a"] ++ ["a.b.c"], IsName n := by decide
  obtain ⟨stem, isStem, moves, _⟩ := (moved_mirrors_iff "a" "/b" valid).2 ["a"] "a.b.c" names
  exact ⟨valid, names, stem, isStem, moves.mpr (by decide)⟩

/-- A file below the dot is not found below the target, since the point in its name is replaced. -/
theorem moved_from_dot :
    moved (["a.wav"].foldl child (parse ".")) (parse ".") (parse "out") ".wav" = .ok ⟨"", ["aoutwav.wav"]⟩ ∧
      (parse "out").below ["a.wav"] = ⟨"", ["out", "a.wav"]⟩ := by
  constructor
  · cbv
  · cbv

end Path

end GameData
