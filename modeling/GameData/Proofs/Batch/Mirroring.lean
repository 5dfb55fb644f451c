import Mathlib
import GameData.Batch.Request
import GameData.Proofs.Files.Visits

/-!
Jobs that take files from one folder to another.

The file at a route below the source folder goes to the same route below the target folder.
-/
namespace GameData

open Filling

namespace Filling

variable {σ α β : Type}

/-- A loop succeeds if each step does, from what holds after the steps before it. -/
theorem exists_foldlM {P : List α → σ → Prop} {step : β → α → Filling σ β} {xs : List α}
    (each : ∀ done x rest, xs = done ++ x :: rest → ∀ b s, P done s →
      ∃ b' s', (step b x).fill s = (.ok b', s') ∧ P (done ++ [x]) s') (b : β) {s : σ} (start : P [] s) :
    ∃ b' s', (xs.foldlM step b).fill s = (.ok b', s') ∧ P xs s' := by
  induction xs using List.reverseRecOn with
  | nil => exact ⟨b, s, rfl, start⟩
  | append_singleton xs x ih =>
      obtain ⟨b₁, s₁, run, holds⟩ := ih fun done y rest split => by
        intro b s
        exact each done y (rest ++ [x]) (by rw [split]; simp) b s
      obtain ⟨b₂, s₂, last, after⟩ := each xs x [] rfl b₁ s₁ holds
      refine ⟨b₂, s₂, ?_, after⟩
      rw [List.foldlM_append, fill_bind_of_ok run, List.foldlM_cons, fill_bind_of_ok last]
      rfl

end Filling

namespace Files

namespace Tree

variable {t u : Tree} {m : String → Bool} {S D p rel : Place} {made : Place → Content} {done : List Place}

theorem text_append {P Q : Place} (first : P ≠ []) (second : Q ≠ []) :
    Place.text (P ++ Q) = Place.text P ++ "/" ++ Place.text Q :=
  String.intercalate_append_of_ne_nil first second

theorem putEntry_putEntry (p : Place) (e f : Entry) (entries : List (Place × Entry)) :
    putEntry p f (putEntry p e entries) = putEntry p f entries := by
  induction entries with
  | nil => simp [putEntry]
  | cons x entries ih =>
      obtain ⟨q, g⟩ := x
      rw [putEntry, putEntry]
      by_cases here : q = p
      · rw [if_pos here, if_pos here, putEntry, if_pos rfl]
      · rw [if_neg here, if_neg here, putEntry, if_neg here, ih]

/-- The last of two entries put at a place counts. -/
theorem put_put (t : Tree) (p : Place) (e f : Entry) : (t.put p e).put p f = t.put p f := by
  rw [put, put, put, putEntry_putEntry]

/-- Two routes to files are none the front of the other. -/
theorem Sound.not_front (sound : t.Sound) {other : Place} (first : t.IsSource m S rel) (second : t.IsSource m S other) :
    ¬ rel <+: other.dropLast := by
  rintro ⟨more, whole⟩
  obtain ⟨_, c, _, _, file⟩ := first
  obtain ⟨name, d, last, _, found⟩ := second
  obtain ⟨front, rfl⟩ := List.getLast?_eq_some_iff.mp last
  rw [List.dropLast_concat] at whole
  rw [← whole, List.append_assoc, ← List.append_assoc S] at found
  rw [sound.folder_of_append found (by simp)] at file
  cases file

/-- A tree in which files were made at some routes below `D`, with the folders they need, and all else is as it was. -/
structure Stored (D : Place) (made : Place → Content) (done : List Place) (t u : Tree) : Prop where
  sound : u.Sound
  folders : ∀ p, t.get? p = some .folder → u.get? p = some .folder
  added : ∀ p, u.get? p = some .folder → t.get? p = some .folder ∨ ∃ rel ∈ done, p <+: D ++ rel.dropLast
  files : ∀ rel ∈ done, u.get? (D ++ rel) = some (.file (made rel))
  others : ∀ p c, (∀ rel ∈ done, p ≠ D ++ rel) → (u.get? p = some (.file c) ↔ t.get? p = some (.file c))

/-- There is room for a file at a route below `D`: no file is on the way, and no folder is there. -/
structure Room (t : Tree) (D rel : Place) : Prop where
  clear : ∀ p c, p <+: D ++ rel.dropLast → t.get? p ≠ some (.file c)
  free : t.get? (D ++ rel) ≠ some .folder

theorem Stored.refl (D : Place) (made : Place → Content) (sound : t.Sound) : Stored D made [] t t :=
  ⟨sound, fun _ => id, fun _ => .inl, by simp, fun _ _ _ => Iff.rfl⟩

/-- The room for a file is not taken by those made before. -/
theorem Stored.room (stored : Stored D made done t u) (sound : t.Sound) (source : t.IsSource m S rel)
    (sources : ∀ rel ∈ done, t.IsSource m S rel) (room : t.Room D rel) : u.Room D rel := by
  constructor
  · intro p c front there
    by_cases new : ∃ other ∈ done, p = D ++ other
    · obtain ⟨other, mem, rfl⟩ := new
      rw [List.prefix_append_right_inj] at front
      exact sound.not_front (sources other mem) source front
    · push Not at new
      exact room.clear p c front ((stored.others p c new).mp there)
  · intro there
    rcases stored.added _ there with old | ⟨other, mem, front⟩
    · exact room.free old
    · rw [List.prefix_append_right_inj] at front
      exact sound.not_front source (sources other mem) front

theorem Stored.step (stored : Stored D made done t u) (source : t.IsSource m S rel)
    (names : ∀ n ∈ D ++ rel, IsName n) (room : u.Room D rel) :
    Stored D made (done ++ [rel]) t ((u.addFolders (D ++ rel.dropLast)).put (D ++ rel) (.file (made rel))) := by
  obtain ⟨front, name, rfl⟩ : ∃ front name, rel = front ++ [name] :=
    ⟨_, _, (List.dropLast_append_getLast source.ne_nil).symm⟩
  obtain ⟨clear, free⟩ := room
  rw [List.dropLast_concat] at clear ⊢
  have ne : D ++ (front ++ [name]) ≠ [] := by simp
  have home : (D ++ (front ++ [name])).dropLast = D ++ front := by rw [← List.append_assoc, List.dropLast_concat]
  have furnished := stored.sound.addFolders (P := D ++ front) (by
    intro n mem
    exact names n (by rw [← List.append_assoc]; exact List.mem_append_left _ mem)) clear
  have free' : (u.addFolders (D ++ front)).get? (D ++ (front ++ [name])) ≠ some .folder := by
    rw [get?_addFolders_of_lt u (by simp)]
    exact free
  refine ⟨?_, ?_, ?_, ?_, ?_⟩
  · refine furnished.sound.put ne names ?_ fun folder => absurd folder free'
    rw [home, get?_addFolders_self]
  · intro p folder
    have kept := furnished.kept _ _ (stored.folders p folder)
    rw [get?_put_of_ne ne]
    · exact kept
    · rintro rfl
      exact free' kept
  · intro p folder
    rw [get?_put ne] at folder
    split at folder
    · cases folder
    · rw [get?_addFolders] at folder
      split at folder
      case isTrue inside => exact .inr ⟨front ++ [name], by simp, by rwa [List.dropLast_concat]⟩
      case isFalse =>
        rcases stored.added p folder with old | ⟨other, mem, inside⟩
        · exact .inl old
        · exact .inr ⟨other, List.mem_append_left _ mem, inside⟩
  · intro other mem
    by_cases here : other = front ++ [name]
    · rw [here]
      exact get?_put_self ne
    · have mem : other ∈ done := (List.mem_append.mp mem).resolve_right fun last => here (List.mem_singleton.mp last)
      rw [get?_put_of_ne ne fun same => here (List.append_cancel_left same)]
      exact furnished.kept _ _ (stored.files other mem)
  · intro p c apart
    rw [get?_put_of_ne ne (apart _ (by simp)),
      ← stored.others p c fun other mem => apart other (List.mem_append_left _ mem)]
    exact ⟨furnished.files p c, furnished.kept p _⟩

/-- A tree with the file at a route from `S` as it was, and with all folders that there were. -/
structure Spared (S rel : Place) (t u : Tree) : Prop where
  sound : u.Sound
  folders : ∀ p, t.get? p = some .folder → u.get? p = some .folder
  file : ∀ c, t.get? (S ++ rel) = some (.file c) → u.get? (S ++ rel) = some (.file c)

theorem Steady.spared (steady : Steady m S t u) {name : String} (last : rel.getLast? = some name)
    (agrees : m name = true) : Spared S rel t u :=
  ⟨steady.sound, steady.folders, fun c => (steady.files rel name c last agrees).mpr⟩

theorem Spared.furnished {v : Tree} (spared : Spared S rel t u) (furnished : u.Furnished v) : Spared S rel t v :=
  ⟨furnished.sound, fun p folder => furnished.kept p _ (spared.folders p folder),
    fun c found => furnished.kept _ _ (spared.file c found)⟩

/-- A file that is written at a route below `D` is not taken for another one by a walk below `S`: the two places are one,
or the walk does not come to the file, since it lies elsewhere or behind a name that was not there at first. -/
def Aside (t : Tree) (S D rel : Place) : Prop :=
  D = S ∨ ∀ other, D ++ rel = S ++ other → t.get? (S ++ other.take 1) = none

theorem aside_of_apart (apart : ¬ S <+: D ++ rel) : t.Aside S D rel :=
  .inr fun _ same => absurd (same ▸ List.prefix_append S _) apart

theorem Sound.get?_take_ne (sound : t.Sound) (source : t.IsSource m S rel) : t.get? (S ++ rel.take 1) ≠ none := by
  obtain ⟨_, c, last, _, found⟩ := source
  cases rel with
  | nil => cases last
  | cons first more =>
      intro none
      change t.get? (S ++ [first]) = Option.none at none
      cases more with
      | nil =>
          rw [none] at found
          cases found
      | cons second more =>
          rw [List.append_cons] at found
          rw [sound.folder_of_append found (List.cons_ne_nil _ _)] at none
          cases none

section Aside

variable (aside : ∀ rel ∈ done, t.Aside S D rel) (stored : Stored D made done t u)
include aside stored

theorem Stored.spared (sound : t.Sound) (source : t.IsSource m S rel) (new : rel ∉ done) : Spared S rel t u := by
  refine ⟨stored.sound, stored.folders, fun c found => (stored.others _ c ?_).mpr found⟩
  intro other mem same
  rcases aside other mem with rfl | away
  · rw [List.append_cancel_left same] at new
    exact new mem
  · exact sound.get?_take_ne source (away rel same.symm)

theorem Stored.listed (sources : ∀ rel ∈ done, t.IsSource m S rel) : Listed m S t u := by
  refine ⟨stored.sound, stored.folders, fun rel name last agrees old => ?_⟩
  by_cases new : ∃ other ∈ done, D ++ other = S ++ rel
  · obtain ⟨other, mem, same⟩ := new
    rcases aside other mem with rfl | away
    · obtain rfl : other = rel := List.append_cancel_left same
      obtain ⟨_, c, _, _, found⟩ := sources other mem
      exact ⟨fun _ => ⟨c, found⟩, fun _ => ⟨_, stored.files other mem⟩⟩
    · exact absurd (away rel same) old
  · push Not at new
    exact exists_congr fun c => stored.others _ c fun other mem same => new other mem same.symm

end Aside

end Tree

namespace Shell

/-- A file is opened, which leaves it empty, and then written. -/
theorem store_text {s : Session} (sound : s.tree.Sound) {P : Place} (names : ∀ n ∈ P, IsName n)
    (home : s.tree.get? P.dropLast = some .folder) (free : s.tree.get? P ≠ some .folder) (data : Bytes) :
    (do
      writeBytes (Tree.Place.text P) []
      let data ← attempt (.ok data)
      writeBytes (Tree.Place.text P) data).fill s =
      (.ok (), { s with tree := s.tree.put P (.file (.raw data)) }) := by
  have ne := Tree.ne_nil_of_get?_ne free
  have opened := write_text sound names home free (.raw [])
  have sound' := sound.put ne names home (e := .file (.raw [])) fun folder => absurd folder free
  have home' : (s.tree.put P (.file (.raw []))).get? P.dropLast = some .folder := by
    rw [Tree.get?_put_of_ne ne]
    · exact home
    · intro same
      rw [same] at home
      exact free home
  have free' : (s.tree.put P (.file (.raw []))).get? P ≠ some .folder := by
    rw [Tree.get?_put_self ne]
    simp
  refine (fill_bind_of_ok opened _).trans ?_
  refine (fill_bind_of_ok (fill_attempt _ _) _).trans ?_
  refine (write_text sound' names home' free' (.raw data)).trans ?_
  rw [Tree.put_put]

end Shell

end Files

namespace Batch

open Files

section Numbers

theorem toList_zeroPadded (width n : Nat) :
    (zeroPadded width n).toList = List.replicate (width - (Nat.toDigits 10 n).length) '0' ++ Nat.toDigits 10 n := by
  simp [zeroPadded, Nat.toString_eq_repr, Nat.repr]

/-- Leading zeros do not change a number. -/
theorem zeroPadded_inj {width m n : Nat} (same : zeroPadded width m = zeroPadded width n) : m = n := by
  have value (n : Nat) : Nat.ofDigitChars 10 (zeroPadded width n).toList 0 = n := by
    rw [toList_zeroPadded, Nat.ofDigitChars_append, Nat.ofDigitChars_replicate_zero, Nat.mul_zero]
    exact Nat.ofDigitChars_toDigits (by decide) (by decide)
  rw [← value m, ← value n, same]

theorem not_mem_zeroPadded (width n : Nat) : '/' ∉ (zeroPadded width n).toList := by
  rw [toList_zeroPadded, List.mem_append]
  rintro (zero | digit)
  · cases List.eq_of_mem_replicate zero
  · exact absurd (Nat.isDigit_of_mem_toDigits (by decide) (by decide) digit) (by decide)

end Numbers

theorem Request.fill_need {α : Type} (field : String) (a : α) (s : Session) :
    (need field (some a)).fill s = (.ok a, s) := rfl

/-- The request takes what is below the place `S`, which the path `src` leads to, to below the place `D`. -/
structure Request.Mirrors (r : Request) (t : Tree) (src : String) (S D : Place) : Prop where
  sound : t.Sound
  source : r.source = some src
  way : t.locate src = .ok S
  target : ∃ dst, r.target = some dst ∧ dst ++ gap src = Tree.Place.text D ++ "/"
  ne : D ≠ []
  names : ∀ n ∈ D, IsName n

namespace Request.Mirrors

variable {r : Request} {t : Tree} {src : String} {S D : Place} (mirrors : r.Mirrors t src S D)
include mirrors

theorem src_ne : src ≠ "" := Tree.ne_of_locate mirrors.way

theorem fill_sourceFolder (s : Session) : r.sourceFolder.fill s = (.ok src, s) := by
  rw [sourceFolder, mirrors.source, fill_need]

theorem fill_moved {rel : Place} (ne : rel ≠ []) (names : ∀ n ∈ rel, IsName n) (s : Session) :
    (r.moved (pathBelow src rel)).fill s = (.ok (Tree.Place.text (D ++ rel)), s) := by
  obtain ⟨dst, given, front⟩ := mirrors.target
  have second : r.targetFolder.fill s = (.ok dst, s) := by
    rw [targetFolder, given, fill_need]
  rw [moved, fill_bind_of_ok (mirrors.fill_sourceFolder s), fill_bind_of_ok second,
    replaceFirst_pathBelow mirrors.src_ne ne names, front, Tree.text_append mirrors.ne ne]
  rfl

theorem names_append {rel : Place} (names : ∀ n ∈ rel, IsName n) : ∀ n ∈ D ++ rel, IsName n := by
  intro n mem
  rcases List.mem_append.mp mem with mem | mem
  · exact mirrors.names n mem
  · exact names n mem

theorem fill_makeFolderFor {rel : Place} (ne : rel ≠ []) (names : ∀ n ∈ rel, IsName n) {s : Session} (sound : s.tree.Sound)
    (clear : ∀ p c, p <+: D ++ rel.dropLast → s.tree.get? p ≠ some (.file c)) :
    (Shell.makeFolderFor (Tree.Place.text (D ++ rel))).fill s =
      (.ok (), { s with tree := s.tree.addFolders (D ++ rel.dropLast) }) := by
  obtain ⟨front, name, rfl⟩ : ∃ front name, rel = front ++ [name] := ⟨_, _, (List.dropLast_append_getLast ne).symm⟩
  have each := mirrors.names_append names
  rw [List.dropLast_concat] at clear ⊢
  rw [← List.append_assoc] at each ⊢
  exact Shell.makeFolderFor_text sound (by simp [mirrors.ne]) each clear

theorem fill_foldSources {β : Type} {patterns : List String} {visit : β → String → Shell β} {out : String}
    {Q : List Place → Session → Prop} (spares : Shell.Spares (Pattern.oneAccepts patterns) S src t visit Q) (b : β) :
    (r.foldSources patterns b visit).fill ⟨t, out⟩ =
      ((t.sources (Pattern.oneAccepts patterns) S).foldlM (fun b rel => visit b (pathBelow src rel)) b).fill ⟨t, out⟩ := by
  rw [foldSources, fill_bind_of_ok (mirrors.fill_sourceFolder _)]
  exact Shell.fill_foldFiles mirrors.sound mirrors.src_ne mirrors.way spares b

theorem fill_forSources {patterns : List String} {visit : String → Shell Unit} {out : String}
    {Q : List Place → Session → Prop}
    (spares : Shell.Spares (Pattern.oneAccepts patterns) S src t (fun _ => visit) Q) :
    (r.forSources patterns visit).fill ⟨t, out⟩ =
      ((t.sources (Pattern.oneAccepts patterns) S).foldlM (fun _ rel => visit (pathBelow src rel)) ()).fill ⟨t, out⟩ :=
  mirrors.fill_foldSources spares ()

theorem fill_readBytes {s : Session} {rel : Place} (spared : Tree.Spared S rel t s.tree) {c : Content}
    (found : t.get? (S ++ rel) = some (.file c)) : (Shell.readBytes (pathBelow src rel)).fill s = (.ok c.bytes, s) := by
  have there := spared.file c found
  have way := Tree.locate_mono spared.folders mirrors.way
  exact Shell.readBytes_of_file (spared.sound.locate_pathBelow mirrors.src_ne way there) there

variable {patterns : List String}

/-- A job whose visits each make one file at the route they come from does so for all files, if the walk takes none of the
files it makes for another one and there is room for them. -/
theorem stores {visit : String → Shell Unit} {made : Place → Content}
    (aside : ∀ rel ∈ t.sources (Pattern.oneAccepts patterns) S, t.Aside S D rel)
    (room : ∀ rel ∈ t.sources (Pattern.oneAccepts patterns) S, t.Room D rel)
    (does : ∀ rel ∈ t.sources (Pattern.oneAccepts patterns) S, ∀ s, Tree.Spared S rel t s.tree → s.tree.Room D rel →
      (visit (pathBelow src rel)).fill s =
        (.ok (), { s with tree := (s.tree.addFolders (D ++ rel.dropLast)).put (D ++ rel) (.file (made rel)) }))
    (out : String) :
    ∃ after, (r.forSources patterns visit).fill ⟨t, out⟩ = (.ok (), ⟨after, out⟩) ∧
      Tree.Stored D made (t.sources (Pattern.oneAccepts patterns) S) t after := by
  have sources {rel : Place} : rel ∈ t.sources (Pattern.oneAccepts patterns) S ↔
      t.IsSource (Pattern.oneAccepts patterns) S rel := mirrors.sound.mem_sources_iff
  have step {done : List Place} {rel : Place} {rest : List Place}
      (split : t.sources (Pattern.oneAccepts patterns) S = done ++ rel :: rest) {s : Session}
      (stored : Tree.Stored D made done t s.tree) :
      ∃ u, (visit (pathBelow src rel)).fill s = (.ok (), { s with tree := u }) ∧
        Tree.Stored D made (done ++ [rel]) t u := by
    have nodup := mirrors.sound.nodup_sources (Pattern.oneAccepts patterns) S
    rw [split] at aside room does nodup
    have new : rel ∉ done := fun mem => List.disjoint_of_nodup_append nodup mem List.mem_cons_self
    have known : ∀ other ∈ done ++ rel :: rest, t.IsSource (Pattern.oneAccepts patterns) S other := by
      rw [← split]
      exact fun other => sources.mp
    obtain ⟨before, after⟩ := List.forall_mem_append.mp known
    have source := after rel List.mem_cons_self
    have mem : rel ∈ done ++ rel :: rest := List.mem_append_right _ List.mem_cons_self
    have spared := stored.spared (fun other early => aside other (List.mem_append_left _ early)) mirrors.sound source new
    have here := stored.room mirrors.sound source before (room rel mem)
    have names := mirrors.names_append (mirrors.sound.isName_of_isSource source)
    exact ⟨_, does rel mem s spared here, stored.step source names here⟩
  have spares : Shell.Spares (Pattern.oneAccepts patterns) S src t (fun _ : Unit => visit) fun done s =>
      (∀ rel ∈ done, rel ∈ t.sources (Pattern.oneAccepts patterns) S) ∧ Tree.Stored D made done t s.tree := by
    refine ⟨fun out => ⟨by simp, .refl D made mirrors.sound⟩, ?_, ?_⟩
    · rintro done s ⟨known, stored⟩
      exact stored.listed (fun rel mem => aside rel (known rel mem)) fun rel mem => sources.mp (known rel mem)
    · rintro done rel rest split b s b' s' ⟨known, stored⟩ run
      obtain ⟨u, does, stored⟩ := step split stored
      rw [does] at run
      cases run
      refine ⟨fun other mem => ?_, stored⟩
      rw [split, List.append_cons]
      exact List.mem_append_left rest mem
  rw [mirrors.fill_forSources spares]
  have each : ∀ done rel rest, t.sources (Pattern.oneAccepts patterns) S = done ++ rel :: rest → ∀ (b : Unit) (s : Session),
      s.printed = out ∧ Tree.Stored D made done t s.tree → ∃ b' s', (visit (pathBelow src rel)).fill s = (.ok b', s') ∧
        s'.printed = out ∧ Tree.Stored D made (done ++ [rel]) t s'.tree := by
    rintro done rel rest split - s ⟨printed, stored⟩
    obtain ⟨u, run, stored⟩ := step split stored
    exact ⟨(), _, run, printed, stored⟩
  obtain ⟨_, s, run, printed, stored⟩ := exists_foldlM
    (P := fun done (s : Session) => s.printed = out ∧ Tree.Stored D made done t s.tree) each ()
    (s := (⟨t, out⟩ : Session)) ⟨rfl, .refl D made mirrors.sound⟩
  refine ⟨s.tree, ?_, stored⟩
  rw [run, ← printed]

end Request.Mirrors

end Batch

end GameData
