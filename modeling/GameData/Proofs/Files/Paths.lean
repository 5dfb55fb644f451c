import Mathlib
import GameData.Files.Shell
import GameData.Proofs.Files.Trees

/-!
Paths as texts and the places they lead to.

A name joined to a path adds one step to the way the path leads. The text of a place leads to it, once the folders before
it are there. A path below a folder starts with the path of that folder, so that moving it exchanges just this front.
-/
namespace GameData

theorem startsWith_slash (s : String) : s.startsWith "/" = (s.toList.head? == some '/') := by
  rw [Bool.eq_iff_iff, String.startsWith_string_iff, beq_iff_eq]
  cases s.toList with
  | nil => simp
  | cons c cs => simp [List.cons_prefix_cons, eq_comm]

theorem endsWith_slash (s : String) : s.endsWith "/" = (s.toList.getLast? == some '/') := by
  rw [Bool.eq_iff_iff, String.endsWith_eq_endsWith_toSlice, String.Slice.endsWith_string_iff, String.copy_toSlice,
    beq_iff_eq]
  constructor
  · rintro ⟨front, same⟩
    rw [← same]
    exact List.getLast?_concat
  · intro last
    obtain ⟨front, same⟩ := List.getLast?_eq_some_iff.mp last
    exact ⟨front, same.symm⟩

namespace Files

open GameData.Path

theorem IsName.not_slash {name : String} (h : IsName name) : name.startsWith "/" = false := by
  rw [startsWith_slash, beq_eq_false_iff_ne]
  intro first
  exact h.2.2.2 (List.mem_of_mem_head? first)

/-- What is joined by slashes from pieces that are neither empty nor divided by a slash does not end in one. -/
theorem last_intercalate {parts : List String} (some : parts ≠ []) (each : ∀ s ∈ parts, s ≠ "" ∧ '/' ∉ s.toList) :
    ∃ front c, ("/".intercalate parts).toList = front ++ [c] ∧ c ≠ '/' := by
  induction parts with
  | nil => exact absurd rfl some
  | cons s rest ih =>
      obtain ⟨⟨ne, clean⟩, others⟩ := List.forall_mem_cons.mp each
      cases rest with
      | nil =>
          have chars : s.toList ≠ [] := mt String.toList_eq_nil_iff.mp ne
          rw [String.intercalate_singleton]
          refine ⟨s.toList.dropLast, s.toList.getLast chars, (List.dropLast_append_getLast chars).symm, ?_⟩
          intro slash
          exact clean (slash ▸ List.getLast_mem chars)
      | cons next rest =>
          obtain ⟨front, c, ends, other⟩ := ih (List.cons_ne_nil _ _) others
          refine ⟨(s ++ "/").toList ++ front, c, ?_, other⟩
          rw [String.intercalate_cons_cons, String.toList_append, ends, List.append_assoc]

theorem pieces_append_slash (a b : String) : pieces (a ++ "/" ++ b) = pieces a ++ pieces b := by
  have chars : (a ++ "/" ++ b).toList = a.toList ++ '/' :: b.toList := by simp
  rw [pieces, chars, List.splitOn_append_cons_self, List.map_append]
  rfl

theorem pieces_of_not_mem {s : String} (clean : '/' ∉ s.toList) : pieces s = [s] := by
  rw [pieces, List.splitOn_eq_singleton clean]
  simp

/-- What stands between a path and a name that is joined to it. -/
def gap (path : String) : String := if path.endsWith "/" then "" else "/"

theorem endsWith_of_last {s : String} {front : List Char} {c : Char} (ends : s.toList = front ++ [c]) (other : c ≠ '/') :
    s.endsWith "/" = false := by
  rw [endsWith_slash, ends, List.getLast?_concat]
  simp [other]

theorem gap_of_last {s : String} {front : List Char} {c : Char} (ends : s.toList = front ++ [c]) (other : c ≠ '/') :
    gap s = "/" := by
  rw [gap, endsWith_of_last ends other, if_neg Bool.false_ne_true]

theorem join_name {a name : String} (ne : a ≠ "") (isName : IsName name) : join a name = a ++ gap a ++ name := by
  rw [join, isName.not_slash, if_neg Bool.false_ne_true, beq_eq_false_iff_ne.mpr ne, Bool.false_or, gap]
  split
  · rw [String.append_empty]
  · rfl

theorem startsWith_append {a : String} (ne : a ≠ "") (b : String) :
    (a ++ b).startsWith "/" = a.startsWith "/" := by
  have chars : a.toList ≠ [] := fun none => ne (String.toList_eq_nil_iff.mp none)
  rw [startsWith_slash, startsWith_slash, String.toList_append, List.head?_append_of_ne_nil _ chars]

/-- A text is divided by the last of the marks in it, if there is one. -/
theorem last_mark (mark : Char) (s : String) :
    mark ∉ s.toList ∨ ∃ a b, s = a ++ String.singleton mark ++ b ∧ mark ∉ b.toList := by
  by_cases there : mark ∈ s.toList
  · obtain ⟨after, before, split, clean⟩ := List.eq_append_cons_of_mem (List.mem_reverse.mpr there)
    have chars : s.toList = before.reverse ++ mark :: after.reverse := by
      rw [← List.reverse_reverse s.toList, split]
      simp
    refine .inr ⟨String.ofList before.reverse, String.ofList after.reverse, ?_, ?_⟩
    · rw [← String.toList_inj, chars]
      simp
    · simpa using clean
  · exact .inl there

/-- A path is a single piece or divided by its last slash. -/
theorem last_slash (s : String) : '/' ∉ s.toList ∨ ∃ a b, s = a ++ "/" ++ b ∧ '/' ∉ b.toList := last_mark '/' s

theorem getLast?_pieces {a : String} (ne : a ≠ "") : (pieces a).getLast? = some "" ↔ a.endsWith "/" = true := by
  rw [endsWith_slash, beq_iff_eq]
  rcases last_slash a with clean | ⟨front, back, rfl, clean⟩
  · rw [pieces_of_not_mem clean, List.getLast?_singleton, Option.some_inj]
    constructor
    · intro none
      exact absurd none ne
    · intro slash
      exact absurd (List.mem_of_getLast? slash) clean
  · rw [pieces_append_slash, pieces_of_not_mem clean, List.getLast?_concat, Option.some_inj]
    constructor
    · rintro rfl
      simp
    · intro slash
      by_contra other
      have chars : back.toList ≠ [] := fun none => other (String.toList_eq_nil_iff.mp none)
      rw [String.toList_append, List.getLast?_append_of_ne_nil _ chars] at slash
      exact clean (List.mem_of_getLast? slash)

/-- The last step of a path with a name joined to it; a slash at the end of the path makes no difference to the steps
before. -/
theorem route_join {a name : String} (ne : a ≠ "") (isName : IsName name) :
    ∃ way, Tree.route (join a name) = way ++ [name] ∧ (Tree.route a = way ∨ Tree.route a = way ++ ["."]) := by
  have kept : [name].filter (· != "") = [name] := by simp [isName.1]
  rw [join_name ne isName, gap]
  by_cases slash : a.endsWith "/" = true
  · -- The last piece of the path is empty, and the name takes its place.
    obtain ⟨front, rfl⟩ : ∃ front, a = front ++ "/" := by
      rw [endsWith_slash, beq_iff_eq] at slash
      obtain ⟨cs, split⟩ := List.getLast?_eq_some_iff.mp slash
      refine ⟨String.ofList cs, ?_⟩
      rw [← String.toList_inj, split]
      simp
    rw [if_pos slash, String.append_empty]
    have before : pieces (front ++ "/") = pieces front ++ [""] := by
      have split := pieces_append_slash front ""
      have empty : pieces "" = [""] := pieces_of_not_mem (by simp)
      rwa [String.append_empty, empty] at split
    have after := pieces_append_slash front name
    rw [pieces_of_not_mem isName.2.2.2] at after
    refine ⟨(if (front ++ "/").startsWith "/" then ["/"] else []) ++ (pieces front).filter (· != ""), ?_, .inr ?_⟩
    · simp only [Tree.route, after, startsWith_append ne, List.filter_append, kept, List.getLast?_concat]
      simp [isName.1]
    · simp only [Tree.route, before, List.filter_append, List.getLast?_concat]
      simp
  · rw [if_neg slash]
    have after := pieces_append_slash a name
    rw [pieces_of_not_mem isName.2.2.2] at after
    have ends : ((pieces a).getLast? == some "") = false := by
      rw [beq_eq_false_iff_ne]
      intro none
      exact slash ((getLast?_pieces ne).mp none)
    have starts : (a ++ "/" ++ name).startsWith "/" = a.startsWith "/" := by
      rw [String.append_assoc, startsWith_append ne]
    refine ⟨Tree.route a, ?_, .inl rfl⟩
    simp only [Tree.route, after, starts, List.filter_append, kept, List.getLast?_concat, ends]
    simp [isName.1]

namespace Tree

variable {t : Tree} {p q : Place} {name : String}

theorem step_name (isName : IsName name) : t.step p name = .ok q ↔ t.get? p = some .folder ∧ q = p ++ [name] := by
  have plain : (name == ".") = false ∧ (name == "..") = false := by simp [isName.2.1, isName.2.2.1]
  unfold step
  rw [plain.1, plain.2]
  cases t.get? p with
  | none => simp
  | some e =>
      cases e with
      | folder => simp [eq_comm]
      | file c => simp

theorem step_dot_bind (name : String) : (t.step p "." >>= fun q => t.step q name) = t.step p name := by
  cases found : t.get? p with
  | none =>
      simp only [step, found]
      rfl
  | some e =>
      cases e with
      | folder =>
          have stay : t.step p "." = .ok p := by
            rw [step, found]
            rfl
          rw [stay]
          rfl
      | file c =>
          simp only [step, found]
          rfl

theorem locate_of_ne {path : String} (ne : path ≠ "") : t.locate path = (route path).foldlM t.step [] := by
  rw [locate, if_neg]
  rw [String.isEmpty_iff]
  exact ne

/-- The empty path leads nowhere. -/
theorem ne_of_locate {path : String} (found : t.locate path = .ok p) : path ≠ "" := by
  rintro rfl
  cases found

theorem locate_join {a : String} (ne : a ≠ "") (isName : IsName name) :
    t.locate (join a name) = t.locate a >>= fun p => t.step p name := by
  have joined : join a name ≠ "" := by
    rw [join_name ne isName]
    simp [isName.1]
  obtain ⟨way, last, before⟩ := route_join ne isName
  rw [locate_of_ne joined, locate_of_ne ne, last, List.foldlM_append]
  have single : (fun q => [name].foldlM t.step q) = fun q => t.step q name := by
    funext q
    rw [List.foldlM_cons]
    exact bind_pure _
  rw [single]
  rcases before with same | dotted
  · rw [same]
  · have dot : (fun q => ["."].foldlM t.step q) = fun q => t.step q "." := by
      funext q
      rw [List.foldlM_cons]
      exact bind_pure _
    rw [dotted, List.foldlM_append, dot, bind_assoc]
    simp only [step_dot_bind]

theorem locate_name (isName : IsName name) : t.locate name = .ok [name] := by
  have way : route name = [name] := by
    simp only [route, pieces_of_not_mem isName.2.2.2, isName.not_slash]
    simp [isName.1]
  rw [locate_of_ne isName.1, way, List.foldlM_cons]
  exact (bind_pure _).trans ((step_name isName).mpr ⟨get?_nil t, rfl⟩)

theorem text_concat {P : Place} (ne : P ≠ []) (name : String) :
    Place.text (P ++ [name]) = Place.text P ++ "/" ++ name := by
  rw [Place.text, String.intercalate_append_of_ne_nil ne (by simp), String.intercalate_singleton]
  rfl

theorem text_singleton (name : String) : Place.text [name] = name := String.intercalate_singleton

/-- The text of a place ends in its last name. -/
theorem text_last {P : Place} (ne : P ≠ []) (names : ∀ name ∈ P, IsName name) :
    ∃ front c, (Place.text P).toList = front ++ [c] ∧ c ≠ '/' :=
  last_intercalate ne fun name mem => ⟨(names name mem).1, (names name mem).2.2.2⟩

theorem text_ne {P : Place} (ne : P ≠ []) (names : ∀ name ∈ P, IsName name) : Place.text P ≠ "" := by
  obtain ⟨front, c, split, _⟩ := text_last ne names
  intro none
  rw [none] at split
  simp at split

theorem gap_text {P : Place} (ne : P ≠ []) (names : ∀ name ∈ P, IsName name) : gap (Place.text P) = "/" := by
  obtain ⟨front, c, ends, other⟩ := text_last ne names
  exact gap_of_last ends other

theorem join_text {P : Place} (ne : P ≠ []) (names : ∀ n ∈ P ++ [name], IsName n) :
    join (Place.text P) name = Place.text (P ++ [name]) := by
  have before : ∀ n ∈ P, IsName n := fun n mem => names n (List.mem_append_left _ mem)
  rw [join_name (text_ne ne before) (names name (by simp)), gap_text ne before, text_concat ne]

/-- The text of a place leads nowhere else, and only if the place stands in a folder. -/
theorem eq_of_locate_text {P : Place} (ne : P ≠ []) (names : ∀ name ∈ P, IsName name)
    (found : t.locate (Place.text P) = .ok q) : q = P ∧ t.get? P.dropLast = some .folder := by
  induction P using List.reverseRecOn generalizing q with
  | nil => exact absurd rfl ne
  | append_singleton P name ih =>
      have isName := names name (by simp)
      have before : ∀ n ∈ P, IsName n := fun n mem => names n (List.mem_append_left _ mem)
      rw [List.dropLast_concat]
      by_cases single : P = []
      · subst single
        rw [List.nil_append, text_singleton, locate_name isName] at found
        cases found
        exact ⟨rfl, get?_nil t⟩
      · rw [← join_text single names, locate_join (text_ne single before) isName] at found
        cases way : t.locate (Place.text P) with
        | error f =>
            rw [way] at found
            cases found
        | ok r =>
            rw [way] at found
            obtain ⟨rfl, _⟩ := ih single before way
            obtain ⟨folder, same⟩ := (step_name isName).mp found
            exact ⟨same, folder⟩

/-- The text of a place that stands in a folder leads there. -/
theorem Sound.locate_text (sound : t.Sound) {P : Place} (ne : P ≠ []) (names : ∀ name ∈ P, IsName name)
    (home : t.get? P.dropLast = some .folder) : t.locate (Place.text P) = .ok P := by
  induction P using List.reverseRecOn with
  | nil => exact absurd rfl ne
  | append_singleton P name ih =>
      have isName := names name (by simp)
      have before : ∀ n ∈ P, IsName n := fun n mem => names n (List.mem_append_left _ mem)
      rw [List.dropLast_concat] at home
      by_cases single : P = []
      · subst single
        rw [List.nil_append, text_singleton, locate_name isName]
      · have way := ih single before (sound.housed _ (mem_of_get? single home)).2
        rw [← join_text single names, locate_join (text_ne single before) isName, way]
        exact (step_name isName).mpr ⟨home, rfl⟩

theorem not_mem_of_mem_splitOn {c : Char} {cs piece : List Char} (mem : piece ∈ cs.splitOn c) : c ∉ piece := by
  induction cs generalizing piece with
  | nil =>
      cases List.mem_singleton.mp mem
      simp
  | cons d cs ih =>
      rw [List.splitOn_cons_eq_if_modifyHead] at mem
      split at mem
      · rcases List.mem_cons.mp mem with rfl | mem
        · simp
        · exact ih mem
      · rename_i other
        cases split : cs.splitOn c with
        | nil =>
            rw [split] at mem
            cases mem
        | cons first rest =>
            rw [split] at mem ih
            rcases List.mem_cons.mp mem with rfl | mem
            · intro inside
              rcases List.mem_cons.mp inside with rfl | inside
              · simp at other
              · exact ih List.mem_cons_self inside
            · exact ih (List.mem_cons_of_mem _ mem)

theorem foldlM_step_isName {way : List String} (pieces : ∀ s ∈ way, s ≠ "" ∧ '/' ∉ s.toList)
    (start : ∀ n ∈ p, IsName n) (found : way.foldlM t.step p = .ok q) : ∀ n ∈ q, IsName n := by
  induction way generalizing p with
  | nil =>
      cases found
      exact start
  | cons s way ih =>
      obtain ⟨⟨some, clean⟩, others⟩ := List.forall_mem_cons.mp pieces
      rw [List.foldlM_cons] at found
      cases next : t.step p s with
      | error f =>
          rw [next] at found
          cases found
      | ok r =>
          rw [next] at found
          refine ih others ?_ found
          unfold step at next
          split at next
          · cases next
          · cases next
          · cases next
            by_cases dot : s = "."
            · simpa [dot] using start
            · by_cases dots : s = ".."
              · simpa [dots] using fun n mem => start n (List.mem_of_mem_dropLast mem)
              · simp only [dot, dots, beq_iff_eq, if_false]
                intro n mem
                rcases List.mem_append.mp mem with mem | mem
                · exact start n mem
                · cases List.mem_singleton.mp mem
                  exact ⟨some, dot, dots, clean⟩

theorem rest_ne_nil (path : String) : (Path.pieces path).filter (· != "") ++
    (if (Path.pieces path).getLast? == some "" then ["."] else []) ≠ [] := by
  intro none
  obtain ⟨kept, ends⟩ := List.append_eq_nil_iff.mp none
  have split : Path.pieces path ≠ [] := by
    rw [Path.pieces, ne_eq, List.map_eq_nil_iff]
    exact List.splitOn_ne_nil _ _
  have last := List.getLast?_eq_some_getLast split
  by_cases empty : (Path.pieces path).getLast split = ""
  · rw [last, empty] at ends
    simp at ends
  · have inside : (Path.pieces path).getLast split ∈ (Path.pieces path).filter (· != "") :=
      List.mem_filter.mpr ⟨List.getLast_mem split, bne_iff_ne.mpr empty⟩
    rw [kept] at inside
    cases inside

/-- In a sound tree a path leads to proper names only; one that starts with a slash leads nowhere. -/
theorem Sound.isName_of_locate (sound : t.Sound) {path : String} (found : t.locate path = .ok p) :
    ∀ n ∈ p, IsName n := by
  rw [locate_of_ne (ne_of_locate found), route, List.append_assoc] at found
  have inner : ∀ s ∈ (Path.pieces path).filter (· != "") ++
      (if (Path.pieces path).getLast? == some "" then ["."] else []), s ≠ "" ∧ '/' ∉ s.toList := by
    intro s mem
    rcases List.mem_append.mp mem with mem | mem
    · obtain ⟨mem, ne⟩ := List.mem_filter.mp mem
      obtain ⟨cs, piece, rfl⟩ := List.mem_map.mp mem
      refine ⟨bne_iff_ne.mp ne, ?_⟩
      rw [String.toList_ofList]
      exact not_mem_of_mem_splitOn piece
    · split at mem
      · cases List.mem_singleton.mp mem
        decide
      · cases mem
  split at found
  · -- The step from the root fails, as there is no folder with such a name.
    exfalso
    have none : t.get? ["/"] = none := by
      rw [Option.eq_none_iff_forall_ne_some]
      intro e there
      exact (sound.isName there "/" (by simp)).2.2.2 (by simp)
    obtain ⟨s, more, follows⟩ := List.exists_cons_of_ne_nil (rest_ne_nil path)
    rw [follows, List.cons_append, List.nil_append, List.foldlM_cons] at found
    have first : t.step [] "/" = .ok ["/"] := rfl
    have second : t.step ["/"] s = .error .notFound := by rw [step, none]
    rw [first] at found
    change (s :: more).foldlM t.step ["/"] = .ok p at found
    rw [List.foldlM_cons, second] at found
    cases found
  · exact foldlM_step_isName inner (by simp) found

end Tree

section Cutting

theorem cut_of_not_mem {s : String} (clean : '/' ∉ s.toList) : cut s = ("", s) := by
  have all : s.toList.reverse.takeWhile (· != '/') = s.toList.reverse := by
    rw [List.takeWhile_eq_self_iff]
    intro c mem
    rw [bne_iff_ne]
    rintro rfl
    exact clean (List.mem_reverse.mp mem)
  simp only [cut, all, List.reverse_reverse, Nat.sub_self, List.take_zero, String.ofList_toList]

theorem cut_append_slash (a : String) {b : String} (clean : '/' ∉ b.toList) : cut (a ++ "/" ++ b) = (a ++ "/", b) := by
  have chars : (a ++ "/" ++ b).toList = (a ++ "/").toList ++ b.toList := by simp
  have tail : (a ++ "/" ++ b).toList.reverse.takeWhile (· != '/') = b.toList.reverse := by
    have clean' : ∀ c ∈ b.toList.reverse, (c != '/') = true := by
      intro c mem
      rw [bne_iff_ne]
      rintro rfl
      exact clean (List.mem_reverse.mp mem)
    rw [chars, List.reverse_append, List.takeWhile_append_of_pos clean', String.toList_append, List.reverse_append]
    simp
  simp only [cut, tail, List.reverse_reverse, String.ofList_toList, Prod.mk.injEq, and_true]
  rw [chars, List.length_append, Nat.add_sub_cancel, List.take_left, String.ofList_toList]

theorem folderName_append_slash {a b : String} {front : List Char} {c : Char} (ends : a.toList = front ++ [c])
    (other : c ≠ '/') (clean : '/' ∉ b.toList) : folderName (a ++ "/" ++ b) = a := by
  have some : ((a ++ "/").toList.all (· == '/')) = false := by
    simp [ends, other]
  have stripped : ((a ++ "/").toList.reverse.dropWhile (· == '/')).reverse = a.toList := by
    simp [ends, other]
  simp only [folderName, cut_append_slash a clean, some, Bool.false_eq_true, if_false, stripped, String.ofList_toList]

theorem folderName_of_not_mem {s : String} (clean : '/' ∉ s.toList) : folderName s = "" := by
  simp [folderName, cut_of_not_mem clean]

/-- What is joined to a path stands after its last slash. -/
theorem baseName_join {a name : String} (ne : a ≠ "") (isName : IsName name) : baseName (join a name) = name := by
  rw [join_name ne isName, gap]
  split
  · rename_i slash
    rw [endsWith_slash, beq_iff_eq] at slash
    obtain ⟨cs, split⟩ := List.getLast?_eq_some_iff.mp slash
    have front : a = String.ofList cs ++ "/" := by
      rw [← String.toList_inj, split]
      simp
    rw [String.append_empty, front, baseName, cut_append_slash _ isName.2.2.2]
  · rw [baseName, cut_append_slash _ isName.2.2.2]

theorem trimmed_of_last {s : String} {front : List Char} {c : Char} (ends : s.toList = front ++ [c]) (other : c ≠ '/') :
    Shell.trimmed s = s := by
  have stripped : (s.toList.reverse.dropWhile (· == '/')).reverse = s.toList := by
    simp [ends, other]
  rw [Shell.trimmed, stripped, String.ofList_toList]

end Cutting

section Moving

theorem replaceFirst_append (old rest new : String) : replaceFirst (old ++ rest) old new = new ++ rest := by
  have found : cutAt old.toList (old ++ rest).toList = some ([], rest.toList) := by
    rw [String.toList_append]
    cases chars : old.toList ++ rest.toList with
    | nil =>
        obtain ⟨first, second⟩ := List.append_eq_nil_iff.mp chars
        rw [first, second]
        rfl
    | cons c cs =>
        have front : old.toList.isPrefixOf (c :: cs) = true := by
          rw [← chars, List.isPrefixOf_iff_prefix]
          exact List.prefix_append _ _
        rw [cutAt, if_pos front, ← chars, List.drop_left]
  rw [replaceFirst, found]
  simp

def pathBelow (folder : String) (names : List String) : String := names.foldl join folder

theorem pathBelow_eq {folder : String} (ne : folder ≠ "") {names : List String} (some : names ≠ [])
    (each : ∀ n ∈ names, IsName n) : pathBelow folder names = folder ++ gap folder ++ Tree.Place.text names := by
  induction names using List.reverseRecOn with
  | nil => exact absurd rfl some
  | append_singleton names name ih =>
      have isName := each name (by simp)
      have before : ∀ n ∈ names, IsName n := fun n mem => each n (List.mem_append_left _ mem)
      rw [pathBelow, List.foldl_append, List.foldl_cons, List.foldl_nil]
      by_cases single : names = []
      · subst single
        rw [List.foldl_nil, join_name ne isName, List.nil_append, Tree.text_singleton]
      · have way : names.foldl join folder = _ := ih single before
        obtain ⟨front, c, ends, other⟩ := Tree.text_last single before
        have joined : (folder ++ gap folder ++ Tree.Place.text names).toList =
            (folder ++ gap folder).toList ++ front ++ [c] := by
          rw [String.toList_append, ends, List.append_assoc]
        have slash := gap_of_last joined other
        rw [way, join_name (by simp [ne]) isName, slash, Tree.text_concat single]
        simp only [String.append_assoc]

/-- Moving a path to another folder exchanges its front. -/
theorem replaceFirst_pathBelow {source : String} (ne : source ≠ "") {names : List String} (some : names ≠ [])
    (each : ∀ n ∈ names, IsName n) (target : String) :
    replaceFirst (pathBelow source names) source target = target ++ gap source ++ Tree.Place.text names := by
  rw [pathBelow_eq ne some each, String.append_assoc, replaceFirst_append, ← String.append_assoc]

end Moving

end Files

end GameData
