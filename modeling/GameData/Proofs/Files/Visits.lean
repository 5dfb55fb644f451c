import Mathlib
import GameData.Proofs.Files.Commands

/-!
The files that a walk over folders comes to.

A walk looks at a folder only when its turn comes, while its visits change the tree. As long as they leave the names it
looks for as they were, it comes to just the files that were there when it started, each once: it does not come to what
is added to its first folder, and what is added elsewhere is none of these files.
-/
namespace GameData.Pattern

/-- Characters that stand for themselves in a pattern. -/
def Plain (cs : List Char) : Prop := ∀ c ∈ cs, c ≠ '*' ∧ c ≠ '?' ∧ c ≠ '['

instance (cs : List Char) : Decidable (Plain cs) := inferInstanceAs (Decidable (∀ c ∈ cs, _))

theorem parse_of_plain {cs : List Char} (plain : Plain cs) : parse cs = cs.map .char := by
  induction cs with
  | nil => rw [parse, List.map_nil]
  | cons c cs ih =>
      obtain ⟨⟨star, mark, bracket⟩, others⟩ := List.forall_mem_cons.mp plain
      have rest := ih others
      rw [parse, rest, List.map_cons]
      · exact star
      · exact mark
      · exact bracket

theorem agrees_chars (cs l : List Char) : agrees (cs.map .char) l = true ↔ l = cs := by
  induction cs generalizing l with
  | nil => rw [List.map_nil, agrees, List.isEmpty_iff]
  | cons c cs ih =>
      rw [List.map_cons]
      cases l with
      | nil => simp [agrees]
      | cons d l =>
          rw [agrees, Bool.and_eq_true, ih, Atom.accepts, beq_iff_eq, List.cons.injEq]
          simp

theorem agrees_star (cs l : List Char) : agrees (.star :: cs.map .char) l = true ↔ cs <:+ l := by
  induction l with
  | nil => rw [agrees, agrees_chars, List.suffix_nil, eq_comm]
  | cons c l ih => rw [agrees, Bool.or_eq_true, agrees_chars, ih, List.suffix_cons_iff, eq_comm]

/-- A star and plain characters agree with the names that end in them. -/
theorem accepts_star {ending : String} (plain : Plain ending.toList) (name : String) :
    accepts ("*" ++ ending) name = true ↔ ending.toList <:+ name.toList := by
  have parsed : parse ("*" ++ ending).toList = .star :: ending.toList.map .char := by
    have chars : ("*" ++ ending).toList = '*' :: ending.toList := by simp
    rw [chars, parse, parse_of_plain plain]
  rw [accepts, parsed, agrees_star]

def oneAccepts (patterns : List String) (name : String) : Bool := patterns.any fun p => accepts p name

theorem oneAccepts_iff {patterns endings : List String} (stars : patterns = endings.map ("*" ++ ·))
    (plain : ∀ e ∈ endings, Plain e.toList) (name : String) :
    oneAccepts patterns name = true ↔ ∃ e ∈ endings, e.toList <:+ name.toList := by
  rw [oneAccepts, stars, List.any_map, List.any_eq_true]
  refine exists_congr fun e => and_congr_right fun mem => ?_
  exact accepts_star (plain e mem) name

/-- A name that ends otherwise does not agree. -/
theorem oneAccepts_eq_false {patterns : List String} (endings : List String) (stars : patterns = endings.map ("*" ++ ·))
    (plain : ∀ e ∈ endings, Plain e.toList) {name ending : String} (ends : ending.toList <:+ name.toList)
    (other : ∀ e ∈ endings, e.length = ending.length ∧ e ≠ ending) : oneAccepts patterns name = false := by
  rw [← Bool.not_eq_true, oneAccepts_iff stars plain]
  rintro ⟨e, mem, also⟩
  obtain ⟨length, ne⟩ := other e mem
  have same : e.toList = ending.toList :=
    (List.suffix_of_suffix_length_le also ends (Nat.le_of_eq length)).eq_of_length length
  exact ne (String.toList_inj.mp same)

end GameData.Pattern

namespace GameData.Files

open Filling

namespace Tree

variable {t u : Tree} {m : String → Bool} {p S : Place}

/-- A route from a place to a file whose name agrees. -/
def IsSource (t : Tree) (m : String → Bool) (S rel : Place) : Prop :=
  ∃ name c, rel.getLast? = some name ∧ m name = true ∧ t.get? (S ++ rel) = some (.file c)

/-- The routes from a place to the files below it whose names agree, in the order of a walk that is `n` folders deep. -/
def below (t : Tree) (m : String → Bool) : Nat → Place → List Place
  | 0, _ => []
  | n + 1, p =>
    ((t.fileNames p).filter m).map (fun name => [name]) ++
      (t.folderNames p).flatMap fun name => (below t m n (p ++ [name])).map (name :: ·)

/-- The same for the end of a route `r` from a place, as routes from that place. -/
def through (t : Tree) (m : String → Bool) (n : Nat) (S r : Place) : List Place := (t.below m n (S ++ r)).map (r ++ ·)

theorem through_succ (n : Nat) (S r : Place) : t.through m (n + 1) S r =
    ((t.fileNames (S ++ r)).filter m).map (fun name => r ++ [name]) ++
      (t.folderNames (S ++ r)).flatMap fun d => t.through m n S (r ++ [d]) := by
  rw [through, below, List.map_append, List.map_map, List.map_flatMap]
  simp only [through, List.map_map, Function.comp_def, List.append_assoc, List.singleton_append]

namespace Sound

variable (sound : t.Sound)
include sound

theorem mem_below_iff {n : Nat} {rel : Place} : rel ∈ t.below m n p ↔ rel.length ≤ n ∧ t.IsSource m p rel := by
  induction n generalizing p rel with
  | zero =>
      constructor
      · intro mem
        cases mem
      · rintro ⟨short, name, c, last, _⟩
        rw [List.length_eq_zero_iff.mp (Nat.le_zero.mp short)] at last
        cases last
  | succ n ih =>
      rw [below, List.mem_append, List.mem_map, List.mem_flatMap]
      constructor
      · rintro (⟨name, mem, rfl⟩ | ⟨d, folder, mem⟩)
        · obtain ⟨file, agrees⟩ := List.mem_filter.mp mem
          obtain ⟨c, found⟩ := sound.mem_fileNames_iff.mp file
          exact ⟨by simp, name, c, rfl, agrees, found⟩
        · obtain ⟨rest, inside, rfl⟩ := List.mem_map.mp mem
          obtain ⟨short, name, c, last, agrees, found⟩ := ih.mp inside
          refine ⟨Nat.succ_le_succ short, name, c, ?_, agrees, ?_⟩
          · rw [List.getLast?_cons, last]
            rfl
          · rwa [List.append_assoc] at found
      · rintro ⟨short, name, c, last, agrees, found⟩
        cases rel with
        | nil => cases last
        | cons d rest =>
            cases rest with
            | nil =>
                cases last
                exact .inl ⟨d, List.mem_filter.mpr ⟨sound.mem_fileNames_iff.mpr ⟨c, found⟩, agrees⟩, rfl⟩
            | cons e rest =>
                rw [List.append_cons] at found
                have folder := sound.folder_of_append found (by simp)
                refine .inr ⟨d, sound.mem_folderNames_iff.mpr folder, List.mem_map.mpr ⟨e :: rest, ?_, rfl⟩⟩
                exact ih.mpr ⟨Nat.le_of_succ_le_succ short, name, c, last, agrees, found⟩

theorem nodup_below (n : Nat) (p : Place) : (t.below m n p).Nodup := by
  induction n generalizing p with
  | zero => exact List.nodup_nil
  | succ n ih =>
      rw [below, List.nodup_append]
      refine ⟨?_, ?_, ?_⟩
      · refine List.Nodup.map (fun a b same => (List.cons.inj same).1) ?_
        exact ((sound.ordered_fileNames p).imp ne_of_lt).filter m
      · rw [List.nodup_flatMap]
        refine ⟨fun d _ => (ih _).map fun a b same => (List.cons.inj same).2, ?_⟩
        refine ((sound.ordered_folderNames p).imp ne_of_lt).imp ?_
        intro d e apart rel first second
        obtain ⟨_, _, rfl⟩ := List.mem_map.mp first
        obtain ⟨_, _, same⟩ := List.mem_map.mp second
        exact apart (List.cons.inj same).1.symm
      · intro a first b second same
        subst same
        obtain ⟨name, _, rfl⟩ := List.mem_map.mp first
        obtain ⟨d, _, mem⟩ := List.mem_flatMap.mp second
        obtain ⟨rest, mem, same⟩ := List.mem_map.mp mem
        obtain ⟨_, _, _, last, _⟩ := sound.mem_below_iff.mp mem
        rw [(List.cons.inj same).2] at last
        cases last

/-- Nothing is found below what is no folder. -/
theorem below_eq_nil (other : t.get? p ≠ some .folder) (n : Nat) : t.below m n p = [] := by
  rw [List.eq_nil_iff_forall_not_mem]
  intro rel mem
  obtain ⟨_, name, c, last, _, found⟩ := sound.mem_below_iff.mp mem
  refine other (sound.folder_of_append found ?_)
  rintro rfl
  cases last

/-- A place is no deeper than there are entries. -/
theorem length_le {e : Entry} (found : t.get? p = some e) : p.length ≤ t.entries.length := by
  have apart : ((List.range p.length).map fun n => p.take (n + 1)).Nodup := by
    refine List.Nodup.map_on ?_ List.nodup_range
    intro a first b second same
    have lengths := congrArg List.length same
    rw [List.mem_range] at first second
    rw [List.length_take_of_le first, List.length_take_of_le second] at lengths
    omega
  have inside : ((List.range p.length).map fun n => p.take (n + 1)) ⊆ t.entries.map Prod.fst := by
    intro q mem
    obtain ⟨n, short, rfl⟩ := List.mem_map.mp mem
    rw [List.mem_range] at short
    have some : p.take (n + 1) ≠ [] := by
      intro none
      have lengths := congrArg List.length none
      rw [List.length_take_of_le short] at lengths
      cases lengths
    have there : ∃ e, t.get? (p.take (n + 1)) = Option.some e := by
      by_cases whole : p.drop (n + 1) = []
      · have all : p.take (n + 1) = p := by
          have split := List.take_append_drop (n + 1) p
          rwa [whole, List.append_nil] at split
        exact ⟨e, by rw [all]; exact found⟩
      · refine ⟨.folder, sound.folder_of_append (e := e) ?_ whole⟩
        rwa [List.take_append_drop]
    obtain ⟨e, there⟩ := there
    exact List.mem_map.mpr ⟨_, mem_of_get? some there, rfl⟩
  have bound := (apart.subperm inside).length_le
  rwa [List.length_map, List.length_range, List.length_map] at bound

end Sound

def sources (t : Tree) (m : String → Bool) (S : Place) : List Place := t.below m (2 * t.entries.length + 2) S

theorem Sound.mem_sources_iff (sound : t.Sound) {rel : Place} : rel ∈ t.sources m S ↔ t.IsSource m S rel := by
  rw [sources, sound.mem_below_iff]
  refine and_iff_right_of_imp ?_
  rintro ⟨_, c, _, _, found⟩
  have bound := sound.length_le found
  rw [List.length_append] at bound
  omega

theorem Sound.nodup_sources (sound : t.Sound) (m : String → Bool) (S : Place) : (t.sources m S).Nodup :=
  sound.nodup_below _ _

theorem IsSource.append {r rel : Place} (source : t.IsSource m (S ++ r) rel) : t.IsSource m S (r ++ rel) := by
  obtain ⟨name, c, last, agrees, found⟩ := source
  refine ⟨name, c, ?_, agrees, by rwa [← List.append_assoc]⟩
  rw [List.getLast?_append, last]
  rfl

theorem IsSource.ne_nil {rel : Place} (source : t.IsSource m S rel) : rel ≠ [] := by
  obtain ⟨_, _, last, _⟩ := source
  rintro rfl
  cases last

theorem Sound.isName_of_isSource (sound : t.Sound) {rel : Place} (source : t.IsSource m S rel) :
    ∀ n ∈ rel, IsName n := by
  obtain ⟨_, c, _, _, found⟩ := source
  intro n mem
  exact sound.isName found n (List.mem_append_right S mem)

/-- A tree in which a walk finds the names that it found at first, whatever the files hold. What was added to its first
folder does not count: that folder is looked at before the first visit. -/
structure Listed (m : String → Bool) (S : Place) (t u : Tree) : Prop where
  sound : u.Sound
  folders : ∀ p, t.get? p = some .folder → u.get? p = some .folder
  files : ∀ rel name, rel.getLast? = some name → m name = true → t.get? (S ++ rel.take 1) ≠ none →
    ((∃ c, u.get? (S ++ rel) = some (.file c)) ↔ ∃ c, t.get? (S ++ rel) = some (.file c))

/-- A tree that still holds the files below a place whose names agree, and no more of them. -/
structure Steady (m : String → Bool) (S : Place) (t u : Tree) : Prop where
  sound : u.Sound
  folders : ∀ p, t.get? p = some .folder → u.get? p = some .folder
  files : ∀ rel name c, rel.getLast? = some name → m name = true →
    (u.get? (S ++ rel) = some (.file c) ↔ t.get? (S ++ rel) = some (.file c))

theorem Steady.refl (m : String → Bool) (S : Place) (sound : t.Sound) : Steady m S t t :=
  ⟨sound, fun _ => id, fun _ _ _ _ _ => Iff.rfl⟩

theorem Steady.listed (steady : Steady m S t u) : Listed m S t u :=
  ⟨steady.sound, steady.folders, fun rel name last agrees _ => exists_congr fun c => steady.files rel name c last agrees⟩

theorem Steady.furnished {v : Tree} (steady : Steady m S t u) (furnished : u.Furnished v) : Steady m S t v := by
  refine ⟨furnished.sound, fun p folder => furnished.kept p _ (steady.folders p folder), ?_⟩
  intro rel name c last agrees
  rw [← steady.files rel name c last agrees]
  exact ⟨furnished.files _ c, furnished.kept _ _⟩

/-- A file may be written where the walk does not look for one. -/
theorem Steady.put (steady : Steady m S t u) (names : ∀ n ∈ p, IsName n) (free : u.get? p ≠ some .folder)
    (home : u.get? p.dropLast = some .folder)
    (apart : ∀ rel name, rel.getLast? = some name → m name = true → S ++ rel ≠ p) (c : Content) :
    Steady m S t (u.put p (.file c)) := by
  have ne : p ≠ [] := ne_nil_of_get?_ne free
  refine ⟨steady.sound.put ne names home fun folder => absurd folder free, ?_, ?_⟩
  · intro q folder
    have kept := steady.folders q folder
    rw [get?_put_of_ne ne]
    · exact kept
    · rintro rfl
      exact free kept
  · intro rel name d last agrees
    rw [get?_put_of_ne ne (apart rel name last agrees)]
    exact steady.files rel name d last agrees

section Paths

variable {src : String}

theorem step_mono (folders : ∀ p, t.get? p = some .folder → u.get? p = some .folder) {piece : String} {q : Place}
    (next : t.step p piece = .ok q) : u.step p piece = .ok q := by
  cases found : t.get? p with
  | none =>
      rw [step, found] at next
      cases next
  | some e =>
      cases e with
      | file c =>
          rw [step, found] at next
          cases next
      | folder =>
          rw [step, found] at next
          rw [step, folders p found]
          exact next

theorem foldlM_step_mono (folders : ∀ p, t.get? p = some .folder → u.get? p = some .folder) {way : List String} {q : Place}
    (found : way.foldlM t.step p = .ok q) : way.foldlM u.step p = .ok q := by
  induction way generalizing p with
  | nil => exact found
  | cons piece way ih =>
      rw [List.foldlM_cons] at found ⊢
      cases next : t.step p piece with
      | error f =>
          rw [next] at found
          cases found
      | ok r =>
          rw [next] at found
          rw [step_mono folders next]
          exact ih found

/-- A path leads to the same place when folders are added. -/
theorem locate_mono (folders : ∀ p, t.get? p = some .folder → u.get? p = some .folder)
    (way : t.locate src = .ok p) : u.locate src = .ok p := by
  rw [locate] at way ⊢
  split at way
  · cases way
  · rename_i ne
    rw [if_neg ne]
    exact foldlM_step_mono folders way

theorem pathBelow_concat (src : String) (rel : Place) (name : String) :
    pathBelow src (rel ++ [name]) = Path.join (pathBelow src rel) name := by
  rw [pathBelow, List.foldl_append]
  rfl

theorem pathBelow_ne (ne : src ≠ "") {rel : Place} (names : ∀ n ∈ rel, IsName n) : pathBelow src rel ≠ "" := by
  by_cases here : rel = []
  · rw [here]
    exact ne
  · rw [pathBelow_eq ne here names]
    simp [ne]

/-- A path below a folder leads below the place of the folder. -/
theorem eq_of_locate_pathBelow (ne : src ≠ "") (way : t.locate src = .ok S) {rel q : Place}
    (names : ∀ n ∈ rel, IsName n) (found : t.locate (pathBelow src rel) = .ok q) : q = S ++ rel := by
  induction rel using List.reverseRecOn generalizing q with
  | nil =>
      have same : t.locate src = .ok q := found
      rw [way] at same
      cases same
      rw [List.append_nil]
  | append_singleton rel name ih =>
      have before : ∀ n ∈ rel, IsName n := fun n mem => names n (List.mem_append_left _ mem)
      rw [pathBelow_concat, locate_join (pathBelow_ne ne before) (names name (by simp))] at found
      cases front : t.locate (pathBelow src rel) with
      | error f =>
          rw [front] at found
          cases found
      | ok r =>
          rw [front] at found
          obtain ⟨_, rfl⟩ := (step_name (names name (by simp))).mp found
          rw [ih before front, List.append_assoc]

theorem Sound.locate_pathBelow (sound : t.Sound) (ne : src ≠ "") (way : t.locate src = .ok S) {rel : Place} {e : Entry}
    (found : t.get? (S ++ rel) = some e) : t.locate (pathBelow src rel) = .ok (S ++ rel) := by
  induction rel using List.reverseRecOn generalizing e with
  | nil =>
      rw [List.append_nil]
      exact way
  | append_singleton rel name ih =>
      have names : ∀ n ∈ rel ++ [name], IsName n := fun n mem => sound.isName found n (List.mem_append_right S mem)
      have before : ∀ n ∈ rel, IsName n := fun n mem => names n (List.mem_append_left _ mem)
      rw [← List.append_assoc] at found
      have home := sound.parent found
      rw [pathBelow_concat, locate_join (pathBelow_ne ne before) (names name (by simp)), ih home, ← List.append_assoc]
      exact (step_name (names name (by simp))).mpr ⟨home, rfl⟩

end Paths

section Listings

variable {r : Place}

/-- In its first folder the walk finds what was there, and elsewhere the names that were. -/
theorem Listed.fileNames (sound : t.Sound) (listed : Listed m S t u) (first : r = [] → u = t)
    (later : r ≠ [] → t.get? (S ++ r.take 1) ≠ none) :
    (u.fileNames (S ++ r)).filter m = (t.fileNames (S ++ r)).filter m := by
  by_cases here : r = []
  · rw [first here]
  refine eq_of_ordered ((listed.sound.ordered_fileNames _).filter m) ((sound.ordered_fileNames _).filter m) ?_
  intro name
  rw [List.mem_filter, List.mem_filter, listed.sound.mem_fileNames_iff, sound.mem_fileNames_iff]
  refine and_congr_left fun agrees => ?_
  have front : (r ++ [name]).take 1 = r.take 1 := List.take_append_of_le_length (List.length_pos_iff.mpr here)
  rw [List.append_assoc]
  exact listed.files (r ++ [name]) name List.getLast?_concat agrees (by rw [front]; exact later here)

/-- Folders that were added do not count where nothing is taken from them. -/
theorem Listed.flatMap_folderNames {α : Type} (sound : t.Sound) (listed : Listed m S t u) {f : String → List α}
    (none : ∀ d, t.get? (p ++ [d]) ≠ some .folder → f d = []) :
    (u.folderNames p).flatMap f = (t.folderNames p).flatMap f := by
  have fewer : t.folderNames p = (u.folderNames p).filter fun d => t.get? (p ++ [d]) = some .folder := by
    refine eq_of_ordered (sound.ordered_folderNames _) ((listed.sound.ordered_folderNames _).filter _) ?_
    intro d
    rw [List.mem_filter, decide_eq_true_iff, listed.sound.mem_folderNames_iff, sound.mem_folderNames_iff]
    exact (and_iff_right_of_imp (listed.folders _)).symm
  rw [fewer]
  induction u.folderNames p with
  | nil => rfl
  | cons d names ih =>
      rw [List.flatMap_cons, List.filter_cons, ih]
      by_cases folder : t.get? (p ++ [d]) = some .folder
      · rw [if_pos (decide_eq_true folder), List.flatMap_cons]
      · rw [if_neg (by simpa using folder), none d folder, List.nil_append]

theorem Listed.through_succ (sound : t.Sound) (listed : Listed m S t u) (n : Nat) (r : Place) :
    t.through m (n + 1) S r = ((t.fileNames (S ++ r)).filter m).map (fun name => r ++ [name]) ++
      (u.folderNames (S ++ r)).flatMap fun d => t.through m n S (r ++ [d]) := by
  rw [Tree.through_succ, ← listed.flatMap_folderNames sound]
  intro d other
  rw [through, ← List.append_assoc, sound.below_eq_nil other, List.map_nil]

/-- The way to any folder but the first starts with a name that was there at first. -/
theorem Listed.get?_take_folder (listed : Listed m S t u) (first : r = [] → u = t)
    (later : r ≠ [] → t.get? (S ++ r.take 1) ≠ none) {d : String} (mem : d ∈ u.folderNames (S ++ r)) :
    t.get? (S ++ (r ++ [d]).take 1) ≠ none := by
  by_cases here : r = []
  · have there := listed.sound.mem_folderNames_iff.mp mem
    rw [first here, here, List.append_nil] at there
    rw [here]
    change t.get? (S ++ [d]) ≠ none
    rw [there]
    exact Option.some_ne_none _
  · rw [List.take_append_of_le_length (List.length_pos_iff.mpr here)]
    exact later here

end Listings

end Tree

namespace Shell

open GameData.Files.Tree

variable {β : Type} {t : Tree} {m : String → Bool} {S : Place} {src : String} {visit : β → String → Shell β}

def visitFolder (m : String → Bool) (visit : β → String → Shell β) (b : β) (root : String) (names : List String) :
    Shell β :=
  (names.filter m).foldlM (fun b name => visit b (Path.join root name)) b

/-- A condition on the files that were visited and on the record, which holds at first and after each visit, and under which
a walk finds the names that it found at first. -/
structure Spares (m : String → Bool) (S : Place) (src : String) (t : Tree) (visit : β → String → Shell β)
    (Q : List Place → Session → Prop) : Prop where
  start : ∀ out, Q [] ⟨t, out⟩
  listed : ∀ done s, Q done s → Listed m S t s.tree
  kept : ∀ done rel rest, t.sources m S = done ++ rel :: rest → ∀ b s b' s', Q done s →
    (visit b (pathBelow src rel)).fill s = (.ok b', s') → Q (done ++ [rel]) s'

theorem Spares.of_steady {Q : Session → Prop} (sound : t.Sound) (start : ∀ out, Q ⟨t, out⟩)
    (steady : ∀ s, Q s → Steady m S t s.tree)
    (kept : ∀ b rel s b' s', t.IsSource m S rel → Q s → (visit b (pathBelow src rel)).fill s = (.ok b', s') → Q s') :
    Spares m S src t visit fun _ => Q := by
  refine ⟨start, fun _ s holds => (steady s holds).listed, ?_⟩
  intro done rel rest split b s b' s'
  exact kept b rel s b' s' (sound.mem_sources_iff.mp (by rw [split]; simp))

variable {Q : List Place → Session → Prop}

theorem Spares.foldlM (spares : Spares m S src t visit Q) {done rels rest : List Place}
    (split : t.sources m S = done ++ rels ++ rest) {b b' : β} {s s' : Session} (holds : Q done s)
    (run : (rels.foldlM (fun b rel => visit b (pathBelow src rel)) b).fill s = (.ok b', s')) : Q (done ++ rels) s' := by
  induction rels generalizing done b s with
  | nil =>
      cases run
      rw [List.append_nil]
      exact holds
  | cons rel rels ih =>
      rw [List.foldlM_cons] at run
      obtain ⟨b₁, s₁, one, others⟩ := fill_bind_eq_ok.mp run
      have after := spares.kept done rel (rels ++ rest) (by rw [split]; simp) b s b₁ s₁ holds one
      have all := ih (by rw [split]; simp) after others
      rwa [List.append_assoc, List.singleton_append] at all

/-- Writing a file whose name does not agree leaves the files of a walk as they were. -/
theorem write_keeps (m : String → Bool) (S : Place) (t : Tree) {path : String}
    (other : ∀ (u : Tree) p name, u.locate (spot path) = .ok p → p.getLast? = some name → m name = false) (c : Content) :
    Keeps (fun s => Steady m S t s.tree) (write path c) := by
  intro s steady
  rcases write_cases path c s with ⟨f, run⟩ | ⟨p, way, free, home, run⟩
  · rw [run]
    exact steady
  · rw [run]
    refine steady.put (steady.sound.isName_of_locate way) free home ?_ c
    rintro rel name last agrees rfl
    have ends : (S ++ rel).getLast? = some name := by
      rw [List.getLast?_append, last]
      rfl
    rw [other s.tree _ name way ends] at agrees
    cases agrees

theorem readBytes_keeps (P : Session → Prop) (path : String) : Keeps P (readBytes path) := by
  intro s holds
  have unchanged : ((readBytes path).fill s).2 = s := by
    cases way : s.tree.locate path with
    | error f =>
        have failed : (read path).fill s = (.error (.system f), s) := fill_bind_of_error (locate_of_error way) _
        rw [readBytes, fill_bind_of_error failed]
    | ok p =>
        rcases found : s.tree.get? p with _ | _ | c
        · have failed : (read path).fill s = (.error (.system .notFound), s) := by
            rw [read, fill_bind_of_ok (locate_of_ok way), fill_bind_of_ok (fill_tree s), found]
            rfl
          rw [readBytes, fill_bind_of_error failed]
        · have failed : (read path).fill s = (.error (.system .isDirectory), s) := by
            rw [read, fill_bind_of_ok (locate_of_ok way), fill_bind_of_ok (fill_tree s), found]
            rfl
          rw [readBytes, fill_bind_of_error failed]
        · rw [readBytes_of_file way found]
  rw [unchanged]
  exact holds

theorem makeFolders_steady (m : String → Bool) (S : Place) (t : Tree) (path : String) :
    Keeps (fun s => Steady m S t s.tree) (makeFolders path) := by
  intro s steady
  exact steady.furnished (makeFolders_keeps s.tree path s (.refl steady.sound))

/-- Steps that are loops make up one loop, where a condition on what was done and on the record makes them so. -/
theorem fill_foldlM_flatMap {σ α γ : Type} {P : List γ → σ → Prop} {step : β → α → Filling σ β} {parts : α → List γ}
    {part : β → γ → Filling σ β} {xs : List α}
    (same : ∀ before x after, xs = before ++ x :: after → ∀ b s, P (before.flatMap parts) s →
      (step b x).fill s = ((parts x).foldlM part b).fill s)
    (kept : ∀ before x after, xs = before ++ x :: after → ∀ b s b' s', P (before.flatMap parts) s →
      ((parts x).foldlM part b).fill s = (.ok b', s') → P (before.flatMap parts ++ parts x) s') (b : β) {s : σ}
    (holds : P [] s) : (xs.foldlM step b).fill s = ((xs.flatMap parts).foldlM part b).fill s ∧
      ∀ b' s', ((xs.flatMap parts).foldlM part b).fill s = (.ok b', s') → P (xs.flatMap parts) s' := by
  induction xs using List.reverseRecOn with
  | nil =>
      refine ⟨rfl, fun b' s' run => ?_⟩
      cases run
      exact holds
  | append_singleton xs x ih =>
      obtain ⟨front, holds'⟩ := ih (fun before y after split => same before y (after ++ [x]) (by rw [split]; simp))
        fun before y after split => kept before y (after ++ [x]) (by rw [split]; simp)
      rw [List.foldlM_append, List.flatMap_append, List.flatMap_singleton, List.foldlM_append]
      rcases run : ((xs.flatMap parts).foldlM part b).fill s with ⟨f | b₁, s₁⟩
      · rw [fill_bind_of_error run, fill_bind_of_error (front.trans run)]
        refine ⟨rfl, fun b' s' whole => ?_⟩
        cases whole
      · rw [fill_bind_of_ok run, fill_bind_of_ok (front.trans run)]
        have before := holds' b₁ s₁ run
        refine ⟨?_, fun b' s' whole => kept xs x [] rfl b₁ s₁ b' s' before whole⟩
        rw [List.foldlM_cons]
        rcases last : (step b₁ x).fill s₁ with ⟨f | b₂, s₂⟩
        · rw [fill_bind_of_error last, ← same xs x [] rfl b₁ s₁ before, last]
        · rw [fill_bind_of_ok last, ← same xs x [] rfl b₁ s₁ before, last]
          rfl

/-- A walk from any folder below the start visits the files that were below it at first. -/
theorem fill_foldFoldersIn (sound : t.Sound) (ne : src ≠ "") (way : t.locate src = .ok S)
    (spares : Spares m S src t visit Q) (n : Nat) {r : Place} (names : ∀ name ∈ r, IsName name) {done rest : List Place}
    (split : t.sources m S = done ++ t.through m n S r ++ rest) (b : β) {s : Session}
    (first : r = [] → s.tree = t) (later : r ≠ [] → t.get? (S ++ r.take 1) ≠ none) (holds : Q done s) :
    (foldFoldersIn (visitFolder m visit) n (pathBelow src r) b).fill s =
      ((t.through m n S r).foldlM (fun b rel => visit b (pathBelow src rel)) b).fill s := by
  induction n generalizing r done rest b s with
  | zero => rfl
  | succ n ih =>
      have listed := spares.listed done s holds
      have way' := locate_mono listed.folders way
      rw [foldFoldersIn, fill_bind_of_ok (fill_tree s)]
      by_cases folder : s.tree.get? (S ++ r) = some .folder
      · rw [listed.sound.locate_pathBelow ne way' folder]
        simp only [Tree.isFolder, folder, BEq.rfl, if_true]
        -- The files in the folder itself, and the folders in it with the files that were below each of them at first.
        have files : visitFolder m visit b (pathBelow src r) (s.tree.fileNames (S ++ r)) =
            (((t.fileNames (S ++ r)).filter m).map fun name => r ++ [name]).foldlM
              (fun b rel => visit b (pathBelow src rel)) b := by
          rw [visitFolder, listed.fileNames sound first later, List.foldlM_map]
          simp only [pathBelow_concat]
        rw [listed.through_succ sound] at split ⊢
        rw [← List.append_assoc done, List.append_assoc _ _ rest] at split
        generalize ((t.fileNames (S ++ r)).filter m).map (fun name => r ++ [name]) = here at split files ⊢
        rw [files, List.foldlM_append]
        rcases run : (here.foldlM (fun b rel => visit b (pathBelow src rel)) b).fill s with ⟨f | b', s'⟩
        · rw [fill_bind_of_error run, fill_bind_of_error run]
        · rw [fill_bind_of_ok run, fill_bind_of_ok run]
          have holds' : Q (done ++ here) s' := spares.foldlM split holds run
          have turns : ∀ before d after, s.tree.folderNames (S ++ r) = before ++ d :: after →
              t.sources m S = done ++ here ++ before.flatMap (fun d => t.through m n S (r ++ [d])) ++
                t.through m n S (r ++ [d]) ++ (after.flatMap (fun d => t.through m n S (r ++ [d])) ++ rest) := by
            intro before d after turn
            rw [split, turn, List.flatMap_append, List.flatMap_cons]
            simp only [List.append_assoc]
          refine (fill_foldlM_flatMap (P := fun visited s => Q (done ++ here ++ visited) s) ?_ ?_ b'
            (by rw [List.append_nil]; exact holds')).1
          · intro before d after turn b s₁ holds₁
            have mem : d ∈ s.tree.folderNames (S ++ r) := by
              rw [turn]
              exact List.mem_append_right _ List.mem_cons_self
            have isName : IsName d := listed.sound.isName (listed.sound.mem_folderNames_iff.mp mem) d (by simp)
            rw [← pathBelow_concat]
            exact ih (by simpa [or_imp, forall_and] using ⟨names, isName⟩) (turns before d after turn) b
              (fun none => absurd none (by simp)) (fun _ => listed.get?_take_folder first later mem) holds₁
          · intro before d after turn b s₁ b₁ s₂ holds₁ run
            rw [← List.append_assoc]
            exact spares.foldlM (turns before d after turn) holds₁ run
      · have none : t.below m (n + 1) (S ++ r) = [] :=
          sound.below_eq_nil (fun there => folder (listed.folders _ there)) _
        rw [through, none]
        cases found : s.tree.locate (pathBelow src r) with
        | error f => rfl
        | ok q =>
            rw [eq_of_locate_pathBelow ne way' names found]
            simp only [Tree.isFolder, beq_iff_eq, if_neg folder]
            rfl

/-- The files of a folder whose names agree are visited, those that were there at first. -/
theorem fill_foldFiles {s : Session} (sound : s.tree.Sound) (ne : src ≠ "") (way : s.tree.locate src = .ok S)
    {patterns : List String} (spares : Spares (Pattern.oneAccepts patterns) S src s.tree visit Q) (b : β) :
    (foldFiles src patterns b visit).fill s =
      ((s.tree.sources (Pattern.oneAccepts patterns) S).foldlM (fun b rel => visit b (pathBelow src rel)) b).fill s := by
  have whole : s.tree.sources (Pattern.oneAccepts patterns) S =
      s.tree.through (Pattern.oneAccepts patterns) (2 * s.tree.entries.length + 2) S [] := by
    simp only [through, List.append_nil, List.nil_append, List.map_id']
    rfl
  have all : s.tree.sources (Pattern.oneAccepts patterns) S =
      [] ++ s.tree.through (Pattern.oneAccepts patterns) (2 * s.tree.entries.length + 2) S [] ++ [] := by
    rw [List.append_nil, List.nil_append, whole]
  have run := fill_foldFoldersIn sound ne way spares (2 * s.tree.entries.length + 2) (by simp) all b (s := s)
    (fun _ => rfl) (fun some => absurd rfl some) (spares.start s.printed)
  rw [← whole] at run
  rw [foldFiles, foldFolders, fill_bind_of_ok (fill_tree s)]
  exact run

end Shell

end GameData.Files
