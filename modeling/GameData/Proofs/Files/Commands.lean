import Mathlib
import GameData.Proofs.Files.Paths
import GameData.Proofs.Keeping

/-!
What commands do to a file tree.

A file is written at the place that its path leads to, or nothing changes. Making folders, whether it succeeds or not,
adds folders and does nothing else; to the text of a place it succeeds as long as no file is in the way, and adds only
folders on that way.
-/
namespace GameData.Files

open Filling

variable {s : Session} {path : String} {p q : Place} {c : Content}

def Content.bytes : Content → Bytes
  | .raw b => b
  | _ => []

namespace Shell

theorem fill_tree (s : Session) : tree.fill s = (.ok s.tree, s) := rfl

theorem fill_look? (path : String) (s : Session) : (look? path).fill s = (.ok (s.tree.look? path), s) := rfl

theorem fill_isFolder (path : String) (s : Session) :
    (isFolder path).fill s = (.ok (s.tree.look? path == some .folder), s) := rfl

theorem locate_of_ok (way : s.tree.locate path = .ok p) : (locate path).fill s = (.ok p, s) := by
  rw [locate, fill_bind_of_ok (fill_tree s), way]
  rfl

theorem locate_of_error {f : SystemFault} (way : s.tree.locate path = .error f) :
    (locate path).fill s = (.error (.system f), s) := by
  rw [locate, fill_bind_of_ok (fill_tree s), way]
  rfl

theorem read_of_file (way : s.tree.locate path = .ok p) (found : s.tree.get? p = some (.file c)) :
    (read path).fill s = (.ok c, s) := by
  rw [read, fill_bind_of_ok (locate_of_ok way), fill_bind_of_ok (fill_tree s), found]
  rfl

theorem readBytes_of_file (way : s.tree.locate path = .ok p) (found : s.tree.get? p = some (.file c)) :
    (readBytes path).fill s = (.ok c.bytes, s) := by
  rw [readBytes, fill_bind_of_ok (read_of_file way found)]
  cases c <;> rfl

/-- The path whose place is written. -/
def spot (path : String) : String := if trimmed path == "" then path else trimmed path

/-- A file is written if its place stands in a folder and is none itself. -/
theorem write_of_home (way : s.tree.locate (spot path) = .ok p) (free : s.tree.get? p ≠ some .folder)
    (home : s.tree.get? p.dropLast = some .folder) (plain : path.endsWith "/" = false) (c : Content) :
    (write path c).fill s = (.ok (), { s with tree := s.tree.put p (.file c) }) := by
  rw [write, ← spot, fill_bind_of_ok (locate_of_ok way), fill_bind_of_ok (fill_tree s), home]
  cases there : s.tree.get? p with
  | none =>
      simp only [plain, Bool.false_eq_true, if_false]
      rfl
  | some e =>
      cases e with
      | folder => exact absurd there free
      | file d =>
          simp only [plain, Bool.false_eq_true, if_false]
          rfl

theorem write_cases (path : String) (c : Content) (s : Session) :
    (∃ f, (write path c).fill s = (.error f, s)) ∨
    ∃ p, s.tree.locate (spot path) = .ok p ∧ s.tree.get? p ≠ some .folder ∧
      s.tree.get? p.dropLast = some .folder ∧
      (write path c).fill s = (.ok (), { s with tree := s.tree.put p (.file c) }) := by
  cases way : s.tree.locate (spot path) with
  | error f =>
      exact .inl ⟨_, fill_bind_of_error (locate_of_error way) _⟩
  | ok p =>
      by_cases ready : s.tree.get? p ≠ some .folder ∧ s.tree.get? p.dropLast = some .folder ∧ path.endsWith "/" = false
      · obtain ⟨free, home, plain⟩ := ready
        exact .inr ⟨p, rfl, free, home, write_of_home way free home plain c⟩
      · left
        rw [write, ← spot, fill_bind_of_ok (locate_of_ok way), fill_bind_of_ok (fill_tree s)]
        rcases there : s.tree.get? p with _ | _ | d
        all_goals rcases home : s.tree.get? p.dropLast with _ | _ | d
        all_goals first
          | exact ⟨_, rfl⟩
          | rw [there, home] at ready
            cases slash : path.endsWith "/"
            · simp [slash] at ready
            · exact ⟨_, rfl⟩

/-- A folder is made if its place stands in a folder and nothing is there. -/
theorem makeFolder_of_home (way : s.tree.locate (spot path) = .ok p) (free : s.tree.get? p = none)
    (home : s.tree.get? p.dropLast = some .folder) :
    (makeFolder path).fill s = (.ok (), { s with tree := s.tree.put p .folder }) := by
  rw [makeFolder, ← spot, fill_bind_of_ok (locate_of_ok way), fill_bind_of_ok (fill_tree s), home, free]
  rfl

theorem makeFolder_cases (path : String) (s : Session) :
    (∃ f, (makeFolder path).fill s = (.error f, s)) ∨
    ∃ p, s.tree.locate (spot path) = .ok p ∧ s.tree.get? p = none ∧ s.tree.get? p.dropLast = some .folder ∧
      (makeFolder path).fill s = (.ok (), { s with tree := s.tree.put p .folder }) := by
  cases way : s.tree.locate (spot path) with
  | error f =>
      exact .inl ⟨_, fill_bind_of_error (locate_of_error way) _⟩
  | ok p =>
      by_cases ready : s.tree.get? p = none ∧ s.tree.get? p.dropLast = some .folder
      · obtain ⟨free, home⟩ := ready
        exact .inr ⟨p, rfl, free, home, makeFolder_of_home way free home⟩
      · left
        rw [makeFolder, ← spot, fill_bind_of_ok (locate_of_ok way), fill_bind_of_ok (fill_tree s)]
        rcases there : s.tree.get? p with _ | _ | d
        all_goals rcases home : s.tree.get? p.dropLast with _ | _ | d
        all_goals first
          | exact ⟨_, rfl⟩
          | exact absurd ⟨there, home⟩ ready

end Shell

namespace Tree

structure Furnished (t u : Tree) : Prop where
  sound : u.Sound
  kept : ∀ p e, t.get? p = some e → u.get? p = some e
  files : ∀ p c, u.get? p = some (.file c) → t.get? p = some (.file c)

variable {t u v : Tree}

theorem Furnished.refl (sound : t.Sound) : t.Furnished t := ⟨sound, fun _ _ => id, fun _ _ => id⟩

theorem Furnished.trans (first : t.Furnished u) (second : u.Furnished v) : t.Furnished v :=
  ⟨second.sound, fun p e found => second.kept p e (first.kept p e found),
    fun p c found => first.files p c (second.files p c found)⟩

theorem ne_nil_of_get?_ne (free : t.get? p ≠ some .folder) : p ≠ [] := by
  rintro rfl
  exact free (get?_nil t)

theorem putEntry_of_lookup {e : Entry} {entries : List (Place × Entry)} (found : entries.lookup p = some e) :
    putEntry p e entries = entries := by
  induction entries with
  | nil => cases found
  | cons x entries ih =>
      obtain ⟨k, f⟩ := x
      rw [List.lookup_cons] at found
      rw [putEntry]
      by_cases here : p = k
      · subst here
        rw [beq_self_eq_true] at found
        cases found
        rw [if_pos rfl]
      · rw [beq_eq_false_iff_ne.mpr here] at found
        rw [if_neg (Ne.symm here), ih found]

/-- What is there already may be put again. -/
theorem put_of_get? {e : Entry} (ne : p ≠ []) (found : t.get? p = some e) : t.put p e = t := by
  rw [get?_of_ne_nil ne] at found
  rw [put, putEntry_of_lookup found]

theorem Sound.furnished_put (sound : t.Sound) (names : ∀ n ∈ p, IsName n) (free : t.get? p = none)
    (home : t.get? p.dropLast = some .folder) : t.Furnished (t.put p .folder) := by
  have ne : p ≠ [] := ne_nil_of_get?_ne (t := t) (by simp [free])
  have apart : ∀ {q e}, t.get? q = some e → q ≠ p := by
    rintro q e found rfl
    rw [free] at found
    cases found
  refine ⟨sound.put ne names home (fun _ => rfl), ?_, ?_⟩
  · intro q e found
    rw [get?_put_of_ne ne (apart found)]
    exact found
  · intro q c found
    rw [get?_put ne] at found
    split at found
    · cases found
    · exact found

theorem addFolders_concat (t : Tree) (P : Place) (name : String) :
    t.addFolders (P ++ [name]) = (t.addFolders P).put (P ++ [name]) .folder := by
  have before : (List.range P.length).foldl (fun t n => t.put ((P ++ [name]).take (n + 1)) .folder) t =
      (List.range P.length).foldl (fun t n => t.put (P.take (n + 1)) .folder) t := by
    refine List.foldl_ext _ _ _ fun u n mem => ?_
    have short : n + 1 ≤ P.length := List.mem_range.mp mem
    rw [List.take_append_of_le_length short]
  have whole : (P ++ [name]).take (P.length + 1) = P ++ [name] := List.take_of_length_le (by simp)
  rw [addFolders, List.length_append, List.length_singleton, List.range_succ, List.foldl_append, before,
    List.foldl_cons, List.foldl_nil, whole]
  rfl

theorem get?_addFolders (t : Tree) (P q : Place) :
    (t.addFolders P).get? q = if q <+: P then some .folder else t.get? q := by
  induction P using List.reverseRecOn with
  | nil =>
      simp only [List.prefix_nil]
      by_cases root : q = []
      · rw [if_pos root, root, get?_nil]
      · rw [if_neg root]
        rfl
  | append_singleton P name ih =>
      rw [addFolders_concat, get?_put (by simp), ih]
      simp only [List.prefix_concat_iff]
      by_cases last : q = P ++ [name]
      · rw [if_pos last, if_pos (.inl last)]
      · rw [if_neg last]
        simp only [last, false_or]

theorem get?_addFolders_self (t : Tree) (P : Place) : (t.addFolders P).get? P = some .folder := by
  rw [get?_addFolders, if_pos (List.prefix_refl P)]

theorem get?_addFolders_of_lt (t : Tree) {P q : Place} (longer : P.length < q.length) :
    (t.addFolders P).get? q = t.get? q := by
  rw [get?_addFolders, if_neg]
  intro front
  exact absurd front.length_le (Nat.not_le_of_lt longer)

theorem Sound.addFolders (sound : t.Sound) {P : Place} (names : ∀ n ∈ P, IsName n)
    (clear : ∀ q c, q <+: P → t.get? q ≠ some (.file c)) : t.Furnished (t.addFolders P) := by
  induction P using List.reverseRecOn with
  | nil => exact .refl sound
  | append_singleton P name ih =>
      have front : P <+: P ++ [name] := List.prefix_append _ _
      have furnished := ih (fun n mem => names n (List.mem_append_left _ mem))
        fun q c inside => clear q c (inside.trans front)
      rw [addFolders_concat]
      cases there : (t.addFolders P).get? (P ++ [name]) with
      | some e =>
          cases e with
          | folder =>
              rw [put_of_get? (by simp) there]
              exact furnished
          | file c => exact absurd (furnished.files _ c there) (clear _ c (List.prefix_refl _))
      | none =>
          refine furnished.trans (furnished.sound.furnished_put names there ?_)
          rw [List.dropLast_concat, get?_addFolders_self]

/-- Nothing is added where all folders are there. -/
theorem Sound.addFolders_eq (sound : t.Sound) {P : Place} (there : t.get? P = some .folder) : t.addFolders P = t := by
  induction P using List.reverseRecOn with
  | nil => rfl
  | append_singleton P name ih =>
      rw [addFolders_concat, ih (sound.parent there), put_of_get? (by simp) there]

end Tree

namespace Shell

theorem makeFolder_keeps (t : Tree) (path : String) : Keeps (fun s => t.Furnished s.tree) (makeFolder path) := by
  intro s furnished
  rcases makeFolder_cases path s with ⟨f, run⟩ | ⟨p, way, free, home, run⟩
  · rw [run]
    exact furnished
  · rw [run]
    have names := furnished.sound.isName_of_locate way
    exact furnished.trans (furnished.sound.furnished_put names free home)

theorem look?_keeps (P : Session → Prop) (path : String) : Keeps P (look? path) := fun _ holds => holds

theorem isFolder_keeps (P : Session → Prop) (path : String) : Keeps P (isFolder path) := fun _ holds => holds

theorem settleFolder_keeps (t : Tree) (path : String) :
    Keeps (fun s => t.Furnished s.tree) (settleFolder path) := by
  refine (makeFolder_keeps t path).tryCatch fun f => ?_
  refine (isFolder_keeps _ path).bind fun there => ?_
  cases there
  · exact .throw f
  · exact .pure ()

theorem makeFoldersTo_keeps (t : Tree) (n : Nat) (path : String) :
    Keeps (fun s => t.Furnished s.tree) (makeFoldersTo n path) := by
  induction n generalizing path with
  | zero => exact settleFolder_keeps t path
  | succ n ih =>
      have passes (f : Fault) : Keeps (fun s => t.Furnished s.tree)
          (if f = .system .alreadyThere then pure () else throw f : Shell Unit) := by
        split
        · exact .pure ()
        · exact .throw f
      refine Keeps.bind (P := fun s => t.Furnished s.tree) (look?_keeps _ _) fun head => ?_
      split
      · refine ((ih (headTail path).1).tryCatch passes).bind fun _ => ?_
        split
        · exact .pure ()
        · exact settleFolder_keeps t path
      · exact settleFolder_keeps t path

/-- Making folders adds folders only, also when it fails. -/
theorem makeFolders_keeps (t : Tree) (path : String) : Keeps (fun s => t.Furnished s.tree) (makeFolders path) :=
  makeFoldersTo_keeps t _ path

theorem spot_of_last {front : List Char} {last : Char} (ends : path.toList = front ++ [last]) (other : last ≠ '/') :
    spot path = path := by
  rw [spot, trimmed_of_last ends other, ite_self]

/-- A file is written at a place that stands in a folder and is none itself. -/
theorem write_of_last {front : List Char} {last : Char} (ends : path.toList = front ++ [last]) (other : last ≠ '/')
    (way : s.tree.locate path = .ok p) (free : s.tree.get? p ≠ some .folder)
    (home : s.tree.get? p.dropLast = some .folder) (c : Content) :
    (write path c).fill s = (.ok (), { s with tree := s.tree.put p (.file c) }) := by
  refine write_of_home ?_ free home (endsWith_of_last ends other) c
  rw [spot_of_last ends other]
  exact way

theorem spot_text {P : Place} (ne : P ≠ []) (names : ∀ n ∈ P, IsName n) :
    spot (Tree.Place.text P) = Tree.Place.text P := by
  obtain ⟨front, c, ends, other⟩ := Tree.text_last ne names
  exact spot_of_last ends other

theorem write_text (sound : s.tree.Sound) {P : Place} (names : ∀ n ∈ P, IsName n)
    (home : s.tree.get? P.dropLast = some .folder) (free : s.tree.get? P ≠ some .folder) (c : Content) :
    (write (Tree.Place.text P) c).fill s = (.ok (), { s with tree := s.tree.put P (.file c) }) := by
  have ne := Tree.ne_nil_of_get?_ne free
  obtain ⟨front, last, ends, other⟩ := Tree.text_last ne names
  exact write_of_last ends other (sound.locate_text ne names home) free home c

theorem look?_text (sound : s.tree.Sound) {P : Place} (ne : P ≠ []) (names : ∀ n ∈ P, IsName n) :
    s.tree.look? (Tree.Place.text P) = s.tree.get? P := by
  rw [Tree.look?]
  cases way : s.tree.locate (Tree.Place.text P) with
  | ok q => rw [(Tree.eq_of_locate_text ne names way).1]
  | error f =>
      cases there : s.tree.get? P with
      | none => rfl
      | some e =>
          have home := (sound.housed _ (Tree.mem_of_get? ne there)).2
          rw [sound.locate_text ne names home] at way
          cases way

/-- A folder is settled at a place that stands in a folder and is no file. -/
theorem settleFolder_text (sound : s.tree.Sound) {P : Place} (ne : P ≠ []) (names : ∀ n ∈ P, IsName n)
    (home : s.tree.get? P.dropLast = some .folder) (clear : ∀ c, s.tree.get? P ≠ some (.file c)) :
    (settleFolder (Tree.Place.text P)).fill s = (.ok (), { s with tree := s.tree.put P .folder }) := by
  have way : s.tree.locate (spot (Tree.Place.text P)) = .ok P := by
    rw [spot_text ne names]
    exact sound.locate_text ne names home
  cases there : s.tree.get? P with
  | none => exact fill_tryCatch_of_ok (makeFolder_of_home way there home) _
  | some e =>
      cases e with
      | file c => exact absurd there (clear c)
      | folder =>
          have failed : (makeFolder (Tree.Place.text P)).fill s = (.error (.system .alreadyThere), s) := by
            rw [makeFolder, ← spot, fill_bind_of_ok (locate_of_ok way), fill_bind_of_ok (fill_tree s), there]
            rfl
          rw [Tree.put_of_get? ne there]
          refine (fill_tryCatch_of_error failed _).trans ?_
          rw [fill_bind_of_ok (fill_isFolder _ s), look?_text sound ne names, there]
          rfl

theorem headTail_singleton {name : String} (isName : IsName name) : headTail name = ("", name) := by
  have base : Path.baseName name = name := by rw [Path.baseName, cut_of_not_mem isName.2.2.2]
  simp only [headTail, base, folderName_of_not_mem isName.2.2.2]
  rw [if_neg]
  simp [isName.1]

theorem folderName_text {P : Place} {name : String} (ne : P ≠ []) (names : ∀ n ∈ P ++ [name], IsName n) :
    Path.folderName (Tree.Place.text (P ++ [name])) = Tree.Place.text P := by
  have before : ∀ n ∈ P, IsName n := fun n mem => names n (List.mem_append_left _ mem)
  obtain ⟨front, c, ends, other⟩ := Tree.text_last ne before
  rw [Tree.text_concat ne]
  exact folderName_append_slash ends other (names name (by simp)).2.2.2

theorem baseName_text (P : Place) {name : String} (isName : IsName name) :
    Path.baseName (Tree.Place.text (P ++ [name])) = name := by
  by_cases single : P = []
  · rw [single, List.nil_append, Tree.text_singleton, Path.baseName, cut_of_not_mem isName.2.2.2]
  · rw [Tree.text_concat single, Path.baseName, cut_append_slash _ isName.2.2.2]

theorem headTail_text {P : Place} {name : String} (ne : P ≠ []) (names : ∀ n ∈ P ++ [name], IsName n) :
    headTail (Tree.Place.text (P ++ [name])) = (Tree.Place.text P, name) := by
  have isName := names name (by simp)
  simp only [headTail, baseName_text P isName, folderName_text ne names]
  rw [if_neg]
  simp [isName.1]

theorem makeFoldersTo_of_there {head tail : String} (n : Nat) (split : headTail path = (head, tail))
    (there : head = "" ∨ (s.tree.look? head).isSome) : (makeFoldersTo n path).fill s = (settleFolder path).fill s := by
  cases n with
  | zero => rfl
  | succ n =>
      rw [makeFoldersTo, split]
      refine (fill_bind_of_ok (fill_look? head s) _).trans ?_
      rw [if_neg]
      rcases there with none | some
      · simp [none]
      · simp [Option.isSome_iff_ne_none.mp some]

theorem makeFoldersTo_of_missing {head tail : String} {u : Session} {n : Nat} (split : headTail path = (head, tail))
    (some : head ≠ "") (isName : IsName tail) (missing : s.tree.look? head = none)
    (made : (makeFoldersTo n head).fill s = (.ok (), u)) :
    (makeFoldersTo (n + 1) path).fill s = (settleFolder path).fill u := by
  rw [makeFoldersTo, split]
  refine (fill_bind_of_ok (fill_look? head s) _).trans ?_
  rw [if_pos (by simp [some, isName.1, missing])]
  refine (fill_bind_of_ok (fill_tryCatch_of_ok made _) _).trans ?_
  rw [if_neg (by simp [isName.2.1])]

/-- Folders are made up to a place, as long as no file is on the way. -/
theorem makeFoldersTo_text (sound : s.tree.Sound) {P : Place} (ne : P ≠ []) (names : ∀ n ∈ P, IsName n)
    (clear : ∀ q c, q <+: P → s.tree.get? q ≠ some (.file c)) {n : Nat} (enough : P.length ≤ n + 1) :
    (makeFoldersTo n (Tree.Place.text P)).fill s = (.ok (), { s with tree := s.tree.addFolders P }) := by
  induction P using List.reverseRecOn generalizing n with
  | nil => exact absurd rfl ne
  | append_singleton P name ih =>
      have isName := names name (by simp)
      have before : ∀ n ∈ P, IsName n := fun n mem => names n (List.mem_append_left _ mem)
      have clear' : ∀ q c, q <+: P → s.tree.get? q ≠ some (.file c) :=
        fun q c inside => clear q c (inside.trans (List.prefix_append _ _))
      have furnished := sound.addFolders before clear'
      have settled : (settleFolder (Tree.Place.text (P ++ [name]))).fill { s with tree := s.tree.addFolders P } =
          (.ok (), { s with tree := s.tree.addFolders (P ++ [name]) }) := by
        rw [Tree.addFolders_concat]
        refine settleFolder_text furnished.sound ne names ?_ ?_
        · rw [List.dropLast_concat, Tree.get?_addFolders_self]
        · intro c there
          exact clear _ c (List.prefix_refl _) (furnished.files _ c there)
      by_cases there : s.tree.get? P = some .folder
      · -- All folders before the last are there.
        rw [sound.addFolders_eq there] at settled
        refine Eq.trans ?_ settled
        by_cases single : P = []
        · subst single
          rw [List.nil_append, Tree.text_singleton]
          exact makeFoldersTo_of_there n (headTail_singleton isName) (.inl rfl)
        · refine makeFoldersTo_of_there n (headTail_text single names) (.inr ?_)
          rw [look?_text sound single before, there]
          rfl
      · have single : P ≠ [] := Tree.ne_nil_of_get?_ne there
        have missing : s.tree.look? (Tree.Place.text P) = none := by
          rw [look?_text sound single before, Option.eq_none_iff_forall_ne_some]
          intro e found
          cases e with
          | folder => exact there found
          | file c => exact clear' P c (List.prefix_refl P) found
        have positive := List.length_pos_iff.mpr single
        rw [List.length_append, List.length_singleton] at enough
        obtain ⟨m, rfl⟩ : ∃ m, n = m + 1 := ⟨n - 1, by omega⟩
        have made := ih single before clear' (n := m) (by omega)
        rw [makeFoldersTo_of_missing (headTail_text single names) (Tree.text_ne single before) isName missing made]
        exact settled

theorem length_le_text {P : Place} (names : ∀ n ∈ P, IsName n) : P.length ≤ (Tree.Place.text P).length := by
  induction P using List.reverseRecOn with
  | nil => exact Nat.zero_le _
  | append_singleton P name ih =>
      have before := ih fun n mem => names n (List.mem_append_left _ mem)
      have positive : 0 < name.length := by
        rw [Nat.pos_iff_ne_zero, ne_eq, String.length_eq_zero_iff]
        exact (names name (by simp)).1
      by_cases single : P = []
      · subst single
        rw [List.nil_append, Tree.text_singleton]
        exact positive
      · rw [Tree.text_concat single, List.length_append, List.length_singleton, String.length_append,
          String.length_append]
        omega

theorem makeFolders_text (sound : s.tree.Sound) {P : Place} (ne : P ≠ []) (names : ∀ n ∈ P, IsName n)
    (clear : ∀ q c, q <+: P → s.tree.get? q ≠ some (.file c)) :
    (makeFolders (Tree.Place.text P)).fill s = (.ok (), { s with tree := s.tree.addFolders P }) :=
  makeFoldersTo_text sound ne names clear (Nat.le_succ_of_le (length_le_text names))

/-- The folder for a file is made up to it, as long as no file is on the way. -/
theorem makeFolderFor_text (sound : s.tree.Sound) {P : Place} {name : String} (ne : P ≠ [])
    (names : ∀ n ∈ P ++ [name], IsName n) (clear : ∀ q c, q <+: P → s.tree.get? q ≠ some (.file c)) :
    (makeFolderFor (Tree.Place.text (P ++ [name]))).fill s = (.ok (), { s with tree := s.tree.addFolders P }) := by
  rw [makeFolderFor, folderName_text ne names]
  exact makeFolders_text sound ne (fun n mem => names n (List.mem_append_left _ mem)) clear

end Shell

end GameData.Files
