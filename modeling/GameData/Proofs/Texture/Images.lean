import Mathlib
import GameData.Batch.Textures
import GameData.Proofs.Batch.Mirroring

/-!
Where the images of a texture go.

The path of an image is the path of its texture with the ending replaced, wherever it occurs in the path. Since an ending
has no slash, it is replaced in each name on the way: the image goes to another folder if the name of a folder contains the
ending.
-/
namespace GameData

section Replacing

variable {old new : List Char}

/-- An occurrence of a text in front of a character that can only begin it ends before that character. -/
theorem isPrefixOf_append_cons {d : Char} (starts : d ∉ old.tail) {a : List Char} (ne : a ≠ []) (b : List Char) :
    old.isPrefixOf (a ++ d :: b) = old.isPrefixOf a := by
  rw [Bool.eq_iff_iff, List.isPrefixOf_iff_prefix, List.isPrefixOf_iff_prefix]
  constructor
  · rintro ⟨rest, whole⟩
    rcases List.append_eq_append_iff.mp whole with ⟨more, rfl, _⟩ | ⟨more, rfl, right⟩
    · exact List.prefix_append old more
    · cases more with
      | nil => rw [List.append_nil]
      | cons c more =>
          cases right
          refine absurd ?_ starts
          rw [List.tail_append_of_ne_nil ne]
          exact List.mem_append_right _ List.mem_cons_self
  · intro inside
    exact inside.trans (List.prefix_append a _)

/-- Texts are replaced apart on both sides of a character that can only begin one. -/
theorem replaceChars_append_cons {d : Char} (starts : d ∉ old.tail) (a b : List Char) :
    replaceChars old new (a ++ d :: b) = replaceChars old new a ++ replaceChars old new (d :: b) := by
  fun_induction replaceChars old new a with
  | case1 => rfl
  | case2 c cs found ih =>
      have here : old.isPrefixOf (c :: (cs ++ d :: b)) = true := by
        rw [← List.cons_append, isPrefixOf_append_cons starts (List.cons_ne_nil c cs)]
        exact found
      have short := (List.isPrefixOf_iff_prefix.mp found).length_le
      rw [List.length_cons] at short
      rw [List.cons_append, replaceChars, if_pos here, List.drop_append_of_le_length (by omega), ih, List.append_assoc]
  | case3 c cs missing ih =>
      have here : ¬ old.isPrefixOf (c :: (cs ++ d :: b)) = true := by
        rw [← List.cons_append, isPrefixOf_append_cons starts (List.cons_ne_nil c cs)]
        exact missing
      rw [List.cons_append, replaceChars, if_neg here, ih, List.cons_append]

theorem replaceChars_self {c : Char} (cs : List Char) : replaceChars (c :: cs) new (c :: cs) = new := by
  have found : (c :: cs).isPrefixOf (c :: cs) = true := List.isPrefixOf_iff_prefix.mpr (List.prefix_refl _)
  rw [replaceChars, if_pos found, List.length_cons, Nat.add_sub_cancel, List.drop_length, replaceChars, List.append_nil]

/-- What follows a slash is replaced apart. -/
theorem replaceChars_slash (ne : old ≠ []) (plain : '/' ∉ old) (a b : List Char) :
    replaceChars old new (a ++ '/' :: b) = replaceChars old new a ++ '/' :: replaceChars old new b := by
  have missing : ¬ old.isPrefixOf ('/' :: b) = true := by
    cases old with
    | nil => exact absurd rfl ne
    | cons c cs =>
        rw [List.isPrefixOf_iff_prefix, List.cons_prefix_cons]
        rintro ⟨rfl, _⟩
        exact plain List.mem_cons_self
  rw [replaceChars_append_cons fun mem => plain (List.mem_of_mem_tail mem), replaceChars, if_neg missing]

theorem mem_replaceChars {d : Char} {cs : List Char} (mem : d ∈ replaceChars old new cs) : d ∈ new ∨ d ∈ cs := by
  fun_induction replaceChars old new cs with
  | case1 => cases mem
  | case2 c cs found ih =>
      rcases List.mem_append.mp mem with mem | mem
      · exact .inl mem
      · exact (ih mem).imp_right fun mem => List.mem_cons_of_mem c (List.mem_of_mem_drop mem)
  | case3 c cs missing ih =>
      rcases List.mem_cons.mp mem with rfl | mem
      · exact .inr List.mem_cons_self
      · exact (ih mem).imp_right (List.mem_cons_of_mem c)

/-- If anything is replaced, what it is replaced with is there. -/
theorem replaceChars_eq_or_subset (old new cs : List Char) : replaceChars old new cs = cs ∨ new ⊆ replaceChars old new cs := by
  fun_induction replaceChars old new cs with
  | case1 => exact .inl rfl
  | case2 => exact .inr (List.subset_append_left _ _)
  | case3 c cs missing ih =>
      rcases ih with same | inside
      · exact .inl (by rw [same])
      · exact .inr fun d mem => List.mem_cons_of_mem c (inside mem)

/-- The length after a replacement depends on the length of the new text only. -/
theorem length_replaceChars (old cs : List Char) :
    ∃ k l, ∀ new, (replaceChars old new cs).length = l + k * new.length := by
  fun_induction replaceChars old [] cs with
  | case1 =>
      refine ⟨0, 0, fun new => ?_⟩
      rw [replaceChars, Nat.zero_mul]
      rfl
  | case2 c cs found ih =>
      obtain ⟨k, l, length⟩ := ih
      refine ⟨k + 1, l, fun new => ?_⟩
      rw [replaceChars, if_pos found, List.length_append, length, Nat.add_mul]
      omega
  | case3 c cs missing ih =>
      obtain ⟨k, l, length⟩ := ih
      refine ⟨k, l + 1, fun new => ?_⟩
      rw [replaceChars, if_neg missing, List.length_cons, length]
      omega

theorem toList_replaceAll {old : String} (ne : old ≠ "") (s new : String) :
    (replaceAll s old new).toList = replaceChars old.toList new.toList s.toList := by
  rw [replaceAll, if_neg, String.toList_ofList]
  rwa [String.isEmpty_iff]

/-- A text without slashes is replaced in each name of a path. -/
theorem replaceAll_text {old new : String} (ne : old ≠ "") (plain : '/' ∉ old.toList) {P : Files.Place} (some : P ≠ []) :
    replaceAll (Files.Tree.Place.text P) old new = Files.Tree.Place.text (P.map (replaceAll · old new)) := by
  induction P using List.reverseRecOn with
  | nil => exact absurd rfl some
  | append_singleton P name ih =>
      by_cases single : P = []
      · subst single
        rw [List.nil_append, Files.Tree.text_singleton, List.map_singleton, Files.Tree.text_singleton]
      · have chars : ∀ a b : String, (a ++ "/" ++ b).toList = a.toList ++ '/' :: b.toList := by simp
        rw [List.map_append, List.map_singleton, Files.Tree.text_concat single, Files.Tree.text_concat (by simpa using single),
          ← ih single, ← String.toList_inj, toList_replaceAll ne, chars, chars, toList_replaceAll ne, toList_replaceAll ne]
        exact replaceChars_slash (by simpa using ne) plain _ _

end Replacing

namespace Batch.Textures

open Files Texture

def endings : List String := [".tex", ".spr", ".pic"]

def isTexture : String → Bool := Pattern.oneAccepts ["*.tex", "*.spr", "*.pic"]

theorem isTexture_iff (name : String) : isTexture name = true ↔ ∃ e ∈ endings, e.toList <:+ name.toList := by
  refine Pattern.oneAccepts_iff (by rfl) ?_ name
  simp [endings, Pattern.Plain]

/-- An ending has four characters, of which only the first is a point. -/
theorem endings_plain : ∀ e ∈ endings, e.length = 4 ∧ e ≠ "" ∧ '/' ∉ e.toList ∧ '.' ∉ e.toList.tail ∧
    e.toList = '.' :: e.toList.tail := by
  decide

/-- The text is the end of an image's name. -/
structure IsSuffix (new : String) : Prop where
  ends : ".tga".toList <:+ new.toList
  plain : '/' ∉ new.toList

/-- What the ending of a texture is replaced with in the name of the image of a bitmap. -/
def suffix (texture : Loop) (i : Nat) : String := (bitmapPlan (facts texture) texture.bitmaps.length i).1

theorem isSuffix_suffix (texture : Loop) (i : Nat) : IsSuffix (suffix texture i) := by
  have numbered (mark : Char) (other : mark ≠ '/') :
      IsSuffix (String.singleton '.' ++ String.singleton mark ++ zeroPadded 2 i ++ ".tga") := by
    refine ⟨?_, ?_⟩
    · rw [String.toList_append]
      exact List.suffix_append _ _
    · simp [not_mem_zeroPadded, Ne.symm other]
  rw [suffix, bitmapPlan]
  split
  · exact numbered '#' (by decide)
  · split
    · exact numbered '%' (by decide)
    · exact ⟨List.suffix_refl _, by simp⟩

/-- The bitmaps of a texture have different suffixes, if there is one only or the version is one that numbers them. -/
theorem suffix_inj {texture : Loop} {i j : Nat} (first : i < texture.bitmaps.length) (second : j < texture.bitmaps.length)
    (versions : texture.bitmaps.length ≤ 1 ∨ (facts texture).version = 7 ∨ (facts texture).version = 9 ∨
      (facts texture).version = 11) (same : suffix texture i = suffix texture j) : i = j := by
  have numbers {mark : String} (equal : mark ++ zeroPadded 2 i ++ ".tga" = mark ++ zeroPadded 2 j ++ ".tga") : i = j := by
    have digits : zeroPadded 2 i = zeroPadded 2 j := by
      rw [← String.toList_inj] at equal ⊢
      simpa using equal
    exact zeroPadded_inj digits
  by_cases sheet : ((facts texture).version = 7 ∨ (facts texture).version = 9) ∧ 1 < texture.bitmaps.length
  · have all (n : Nat) : suffix texture n = ".#" ++ zeroPadded 2 n ++ ".tga" := by rw [suffix, bitmapPlan, if_pos sheet]
    rw [all, all] at same
    exact numbers same
  · by_cases levels : (facts texture).version = 11
    · have zero : suffix texture 0 = ".tga" := by rw [suffix, bitmapPlan, if_neg sheet, if_neg (by simp)]
      have later {n : Nat} (pos : 0 < n) : suffix texture n = ".%" ++ zeroPadded 2 n ++ ".tga" := by
        rw [suffix, bitmapPlan, if_neg sheet, if_pos ⟨levels, pos⟩]
      have apart {n : Nat} (pos : 0 < n) : suffix texture n ≠ suffix texture 0 := by
        intro equal
        rw [later pos, zero, ← String.toList_inj] at equal
        simp at equal
      rcases Nat.eq_zero_or_pos i with rfl | posi
      · rcases Nat.eq_zero_or_pos j with rfl | posj
        · rfl
        · exact absurd same.symm (apart posj)
      · rcases Nat.eq_zero_or_pos j with rfl | posj
        · exact absurd same (apart posi)
        · rw [later posi, later posj] at same
          exact numbers same
    · omega

section Places

/-- The place of the image of a texture that goes to a route below `D`: the ending is replaced in all names. -/
def imagePlace (D rel : Place) (new : String) : Place :=
  (D ++ rel).map fun name => replaceAll name (lastFour (rel.getLastD "")) new

theorem lastFour_of_suffix {s e : String} (ends : e.toList <:+ s.toList) (four : e.length = 4) : lastFour s = e := by
  obtain ⟨front, whole⟩ := ends
  have length : s.length = front.length + 4 := by
    rw [← String.length_toList, ← whole, List.length_append, String.length_toList, four]
  rw [lastFour, ← whole, length, Nat.add_sub_cancel, List.drop_left, String.ofList_toList]

variable {t : Tree} {S D rel : Place} {src new : String}

theorem ending_of_isSource (source : t.IsSource isTexture S rel) :
    ∃ e ∈ endings, lastFour (rel.getLastD "") = e ∧ e.toList <:+ (rel.getLastD "").toList := by
  obtain ⟨name, _, last, agrees, _⟩ := source
  obtain ⟨e, mem, ends⟩ := (isTexture_iff name).mp agrees
  obtain ⟨front, rfl⟩ := List.getLast?_eq_some_iff.mp last
  rw [List.getLastD_concat]
  exact ⟨e, mem, lastFour_of_suffix ends (endings_plain e mem).1, ends⟩

/-- The ending of a texture is known from its path as well as from its name. -/
theorem lastFour_pathBelow (source : t.IsSource isTexture S rel) (ne : src ≠ "") (names : ∀ n ∈ rel, IsName n) :
    lastFour (pathBelow src rel) = lastFour (rel.getLastD "") := by
  obtain ⟨e, mem, same, ends⟩ := ending_of_isSource source
  obtain ⟨front, name, rfl⟩ : ∃ front name, rel = front ++ [name] :=
    ⟨_, _, (List.dropLast_append_getLast source.ne_nil).symm⟩
  rw [List.getLastD_concat] at same ends ⊢
  have before := Tree.pathBelow_ne ne fun n mem => names n (List.mem_append_left _ mem)
  rw [same, Tree.pathBelow_concat, join_name before (names name (by simp))]
  refine lastFour_of_suffix ?_ (endings_plain e mem).1
  rw [String.toList_append]
  exact ends.trans (List.suffix_append _ _)

theorem isName_replaceAll {name e : String} (isName : IsName name) (ne : e ≠ "") (isSuffix : IsSuffix new) :
    IsName (replaceAll name e new) := by
  rcases replaceChars_eq_or_subset e.toList new.toList name.toList with same | inside
  · rw [← toList_replaceAll ne, String.toList_inj] at same
    rwa [same]
  · rw [← toList_replaceAll ne] at inside
    have letter : 't' ∈ (replaceAll name e new).toList := inside (isSuffix.ends.subset (by decide))
    refine ⟨?_, ?_, ?_, ?_⟩
    · intro none
      rw [none] at letter
      cases letter
    · intro dot
      rw [dot] at letter
      simp at letter
    · intro dots
      rw [dots] at letter
      simp at letter
    · intro slash
      rw [toList_replaceAll ne] at slash
      rcases mem_replaceChars slash with mem | mem
      · exact isSuffix.plain mem
      · exact isName.2.2.2 mem

theorem isName_imagePlace (source : t.IsSource isTexture S rel) (names : ∀ n ∈ D ++ rel, IsName n)
    (isSuffix : IsSuffix new) : ∀ n ∈ imagePlace D rel new, IsName n := by
  intro n mem
  obtain ⟨e, known, ending, _⟩ := ending_of_isSource source
  rw [imagePlace, ending] at mem
  obtain ⟨name, inside, rfl⟩ := List.mem_map.mp mem
  exact isName_replaceAll (names name inside) (endings_plain e known).2.1 isSuffix

theorem replaceAll_moved (source : t.IsSource isTexture S rel) (ne : src ≠ "") (names : ∀ n ∈ rel, IsName n)
    (new : String) :
    replaceAll (Tree.Place.text (D ++ rel)) (lastFour (pathBelow src rel)) new = Tree.Place.text (imagePlace D rel new) := by
  obtain ⟨e, known, ending, _⟩ := ending_of_isSource source
  obtain ⟨_, given, plain, _⟩ := endings_plain e known
  rw [lastFour_pathBelow source ne names, imagePlace, ending]
  exact replaceAll_text given plain (by simp [source.ne_nil])

/-- The name of an image ends in what the ending of its texture was replaced with. -/
theorem imagePlace_getLast? (source : t.IsSource isTexture S rel) (D : Place) :
    ∃ old front : List Char, ∀ new : String, ∃ name, (imagePlace D rel new).getLast? = some name ∧
      name.toList = replaceChars old new.toList front ++ new.toList := by
  obtain ⟨e, known, ending, front, whole⟩ := ending_of_isSource source
  obtain ⟨_, ne, _, starts, split⟩ := endings_plain e known
  have last : (D ++ rel).getLast? = some (rel.getLastD "") := by
    rw [List.getLast?_append_of_ne_nil _ source.ne_nil, List.getLast?_eq_some_getLast source.ne_nil,
      List.getLastD_eq_getLast?, List.getLast?_eq_some_getLast source.ne_nil]
    rfl
  refine ⟨e.toList, front, fun new => ⟨replaceAll (rel.getLastD "") e new, ?_, ?_⟩⟩
  · rw [imagePlace, ending, List.getLast?_map, last]
    rfl
  · rw [toList_replaceAll ne, ← whole]
    rw [split] at starts ⊢
    rw [replaceChars_append_cons starts, replaceChars_self]

theorem imagePlace_last (source : t.IsSource isTexture S rel) (isSuffix : IsSuffix new) :
    ∃ name, (imagePlace D rel new).getLast? = some name ∧ ".tga".toList <:+ name.toList := by
  obtain ⟨old, front, named⟩ := imagePlace_getLast? source D
  obtain ⟨name, last, chars⟩ := named new
  refine ⟨name, last, ?_⟩
  rw [chars]
  exact isSuffix.ends.trans (List.suffix_append _ _)

/-- The images of a texture have different places if their suffixes differ. -/
theorem imagePlace_inj (source : t.IsSource isTexture S rel) {other : String}
    (same : imagePlace D rel new = imagePlace D rel other) : new = other := by
  obtain ⟨old, front, named⟩ := imagePlace_getLast? source D
  obtain ⟨name, last, chars⟩ := named new
  obtain ⟨name', last', chars'⟩ := named other
  rw [same, last'] at last
  cases last
  rw [chars] at chars'
  -- The name has the suffix once more than the front has the ending, so that its length gives that of the suffix.
  obtain ⟨k, l, length⟩ := length_replaceChars old front
  have lengths := congrArg List.length chars'
  rw [List.length_append, List.length_append, length, length] at lengths
  have equal : (k + 1) * new.toList.length = (k + 1) * other.toList.length := by
    rw [Nat.add_mul, Nat.add_mul]
    omega
  have ends := List.append_inj_right' chars' (Nat.eq_of_mul_eq_mul_left (Nat.succ_pos k) equal)
  exact String.toList_inj.mp ends

end Places

end Batch.Textures

end GameData
