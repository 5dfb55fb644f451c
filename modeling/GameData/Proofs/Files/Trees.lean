import Mathlib
import GameData.Files.Tree

/-!
File trees as maps from places to entries.

A tree is sound when its places differ, consist of proper names, and stand in folders. What is put into a sound tree in
this way leaves it sound. The names in a folder are listed in strict order, so that a list of names is determined by what
is found at the places.
-/
namespace GameData.Files

def IsName (s : String) : Prop := s ≠ "" ∧ s ≠ "." ∧ s ≠ ".." ∧ '/' ∉ s.toList

instance (s : String) : Decidable (IsName s) := inferInstanceAs (Decidable (_ ∧ _ ∧ _ ∧ _))

namespace Tree

theorem lookup_putEntry (p q : Place) (e : Entry) (entries : List (Place × Entry)) :
    (putEntry p e entries).lookup q = if q = p then some e else entries.lookup q := by
  induction entries with
  | nil =>
      rw [putEntry, List.lookup_cons, List.lookup_nil]
      by_cases same : q = p
      · rw [if_pos same, beq_iff_eq.mpr same]
      · rw [if_neg same, beq_eq_false_iff_ne.mpr same]
  | cons x entries ih =>
      obtain ⟨k, f⟩ := x
      rw [putEntry]
      by_cases found : k = p
      · subst found
        rw [if_pos rfl, List.lookup_cons, List.lookup_cons]
        by_cases same : q = k
        · rw [if_pos same, beq_iff_eq.mpr same]
        · rw [if_neg same, beq_eq_false_iff_ne.mpr same]
      · rw [if_neg found, List.lookup_cons, List.lookup_cons, ih]
        by_cases same : q = k
        · subst same
          rw [beq_self_eq_true]
          exact (if_neg found).symm
        · rw [beq_eq_false_iff_ne.mpr same]

variable {t : Tree} {p q : Place} {e : Entry}

@[simp] theorem get?_nil (t : Tree) : t.get? [] = some .folder := rfl

theorem get?_of_ne_nil (ne : p ≠ []) : t.get? p = t.entries.lookup p := if_neg ne

theorem get?_put (ne : p ≠ []) : (t.put p e).get? q = if q = p then some e else t.get? q := by
  by_cases root : q = []
  · subst root
    rw [get?_nil, get?_nil, if_neg ne.symm]
  · rw [get?_of_ne_nil root, get?_of_ne_nil root]
    exact lookup_putEntry p q e t.entries

theorem get?_put_self (ne : p ≠ []) : (t.put p e).get? p = some e := by
  rw [get?_put ne, if_pos rfl]

theorem get?_put_of_ne (ne : p ≠ []) (other : q ≠ p) : (t.put p e).get? q = t.get? q := by
  rw [get?_put ne, if_neg other]

theorem map_fst_putEntry (p : Place) (e : Entry) (entries : List (Place × Entry)) :
    (putEntry p e entries).map Prod.fst =
      if p ∈ entries.map Prod.fst then entries.map Prod.fst else entries.map Prod.fst ++ [p] := by
  induction entries with
  | nil => rfl
  | cons x entries ih =>
      obtain ⟨k, f⟩ := x
      rw [putEntry]
      by_cases found : k = p
      · subst found
        rw [if_pos rfl, List.map_cons, List.map_cons, if_pos List.mem_cons_self]
      · have moved : p ∈ ((k, f) :: entries).map Prod.fst ↔ p ∈ entries.map Prod.fst := by
          rw [List.map_cons, List.mem_cons, or_iff_right (Ne.symm found)]
        rw [if_neg found, List.map_cons, ih]
        by_cases there : p ∈ entries.map Prod.fst
        · rw [if_pos there, if_pos (moved.mpr there), List.map_cons]
        · rw [if_neg there, if_neg (there ∘ moved.mp), List.map_cons, List.cons_append]

theorem mem_putEntry {entries : List (Place × Entry)} {x : Place × Entry} (mem : x ∈ putEntry p e entries) :
    x = (p, e) ∨ x ∈ entries := by
  induction entries with
  | nil => exact .inl (List.mem_singleton.mp mem)
  | cons y entries ih =>
      rw [putEntry] at mem
      split at mem
      · rcases List.mem_cons.mp mem with rfl | mem
        · exact .inl rfl
        · exact .inr (List.mem_cons_of_mem _ mem)
      · rcases List.mem_cons.mp mem with rfl | mem
        · exact .inr List.mem_cons_self
        · exact (ih mem).imp_right (List.mem_cons_of_mem _)

/-- A tree as it stands in a working folder: its places differ and have proper names, and every entry stands in a
folder. -/
structure Sound (t : Tree) : Prop where
  distinct : (t.entries.map Prod.fst).Nodup
  named : ∀ x ∈ t.entries, ∀ name ∈ x.1, IsName name
  housed : ∀ x ∈ t.entries, x.1 ≠ [] ∧ t.get? x.1.dropLast = some .folder

theorem mem_of_get? (ne : p ≠ []) (found : t.get? p = some e) : (p, e) ∈ t.entries := by
  rw [get?_of_ne_nil ne] at found
  obtain ⟨front, back, split, _⟩ := List.lookup_eq_some_iff.mp found
  rw [split]
  exact List.mem_append_right front List.mem_cons_self

namespace Sound

variable (sound : t.Sound)
include sound

theorem mem_entries_iff : (p, e) ∈ t.entries ↔ p ≠ [] ∧ t.get? p = some e := by
  constructor
  · intro mem
    have ne := (sound.housed _ mem).1
    refine ⟨ne, ?_⟩
    obtain ⟨front, back, split⟩ := List.append_of_mem mem
    have distinct := sound.distinct
    rw [get?_of_ne_nil ne]
    rw [split, List.map_append, List.map_cons] at distinct
    refine List.lookup_eq_some_iff.mpr ⟨front, back, split, ?_⟩
    intro x before
    have apart := (List.nodup_append.mp distinct).2.2 x.1 (List.mem_map_of_mem before) p List.mem_cons_self
    exact bne_iff_ne.mpr apart.symm
  · rintro ⟨ne, found⟩
    exact mem_of_get? ne found

theorem isName (found : t.get? p = some e) : ∀ name ∈ p, IsName name := by
  by_cases root : p = []
  · subst root
    intro name mem
    cases mem
  · exact sound.named _ (mem_of_get? root found)

theorem parent {name : String} (found : t.get? (p ++ [name]) = some e) : t.get? p = some .folder := by
  have housed := (sound.housed _ (mem_of_get? (by simp) found)).2
  rwa [List.dropLast_concat] at housed

/-- All folders on the way to an entry are there. -/
theorem folder_of_append (found : t.get? (p ++ q) = some e) (more : q ≠ []) : t.get? p = some .folder := by
  induction q using List.reverseRecOn generalizing e with
  | nil => exact absurd rfl more
  | append_singleton q name ih =>
      rw [← List.append_assoc] at found
      have inside := sound.parent found
      by_cases last : q = []
      · rwa [last, List.append_nil] at inside
      · exact ih inside last

/-- An entry may be put into a folder, as long as no folder is replaced by a file. -/
theorem put (ne : p ≠ []) (names : ∀ name ∈ p, IsName name) (home : t.get? p.dropLast = some .folder)
    (keeps : t.get? p = some .folder → e = .folder) : (t.put p e).Sound := by
  have shorter : p.dropLast ≠ p := by
    intro same
    have length := congrArg List.length same
    have positive := List.length_pos_iff.mpr ne
    rw [List.length_dropLast] at length
    omega
  refine ⟨?_, ?_, ?_⟩
  · rw [Tree.put, map_fst_putEntry]
    split
    · exact sound.distinct
    · rename_i new
      exact List.nodup_append.mpr ⟨sound.distinct, List.nodup_singleton p, by
        intro a mem b single
        cases List.mem_singleton.mp single
        exact fun same => new (same ▸ mem)⟩
  · intro x mem
    rcases mem_putEntry mem with rfl | mem
    · exact names
    · exact sound.named x mem
  · intro x mem
    rcases mem_putEntry mem with rfl | mem
    · refine ⟨ne, ?_⟩
      rw [get?_put_of_ne ne shorter]
      exact home
    · obtain ⟨some, inside⟩ := sound.housed x mem
      refine ⟨some, ?_⟩
      by_cases here : x.1.dropLast = p
      · rw [here] at inside ⊢
        rw [get?_put_self ne, keeps inside]
      · rw [get?_put_of_ne ne here]
        exact inside

end Sound

section Names

theorem foldr_insertNamed (entries : List (String × Entry)) :
    entries.foldr insertNamed [] = entries.insertionSort fun a b => a.1 ≤ b.1 := by
  have insert (x : String × Entry) (l : List (String × Entry)) :
      insertNamed x l = l.orderedInsert (fun a b => a.1 ≤ b.1) x := by
    induction l with
    | nil => rfl
    | cons y l ih => rw [insertNamed, List.orderedInsert_cons, ih]
  induction entries with
  | nil => rfl
  | cons x entries ih => rw [List.foldr_cons, ih, insert, List.insertionSort_cons]

def inFolder (p : Place) (x : Place × Entry) : Option (String × Entry) :=
  match x.1.getLast? with
  | some name => if x.1.dropLast = p then some (name, x.2) else none
  | none => none

theorem inFolder_eq_some_iff {x : Place × Entry} {y : String × Entry} :
    inFolder p x = some y ↔ x = (p ++ [y.1], y.2) := by
  obtain ⟨place, entry⟩ := x
  obtain ⟨name, e⟩ := y
  simp only [inFolder]
  induction place using List.reverseRecOn with
  | nil => simp
  | append_singleton front last _ =>
      rw [List.getLast?_concat, List.dropLast_concat]
      by_cases here : front = p
      · subst here
        simp
      · simp [here]

theorem children_eq (t : Tree) (p : Place) :
    t.children p = (t.entries.filterMap (inFolder p)).insertionSort fun a b => a.1 ≤ b.1 :=
  foldr_insertNamed _

/-- Two lists in strict order are equal if they have the same members. -/
theorem eq_of_ordered {l m : List String} (first : l.Pairwise (· < ·)) (second : m.Pairwise (· < ·))
    (same : ∀ s, s ∈ l ↔ s ∈ m) : l = m := by
  have perm : l.Perm m := (List.perm_ext_iff_of_nodup (first.imp ne_of_lt) (second.imp ne_of_lt)).mpr same
  exact perm.eq_of_pairwise (fun a b _ _ less more => absurd (less.trans more) (lt_irrefl a)) first second

variable {name : String}

namespace Sound

variable (sound : t.Sound)
include sound

theorem mem_children_iff : (name, e) ∈ t.children p ↔ t.get? (p ++ [name]) = some e := by
  rw [children_eq, List.mem_insertionSort, List.mem_filterMap]
  constructor
  · rintro ⟨x, mem, here⟩
    rw [inFolder_eq_some_iff] at here
    subst here
    exact (sound.mem_entries_iff.mp mem).2
  · intro found
    exact ⟨_, mem_of_get? (by simp) found, inFolder_eq_some_iff.mpr rfl⟩

theorem ordered_children (p : Place) : (t.children p).Pairwise fun a b => a.1 < b.1 := by
  have apart : (t.entries.filterMap (inFolder p)).Pairwise fun a b => a.1 ≠ b.1 := by
    rw [List.pairwise_filterMap]
    have distinct := List.pairwise_map.mp sound.distinct
    refine distinct.imp ?_
    intro x y ne a first b second same
    rw [inFolder_eq_some_iff] at first second
    apply ne
    rw [first, second, same]
  have sorted := List.pairwise_insertionSort (fun a b : String × Entry => a.1 ≤ b.1) (t.entries.filterMap (inFolder p))
  rw [children_eq]
  have moved := (List.perm_insertionSort (fun a b : String × Entry => a.1 ≤ b.1) _).pairwise_iff
    (R := fun a b : String × Entry => a.1 ≠ b.1) Ne.symm |>.mpr apart
  exact sorted.and moved |>.imp fun both => lt_of_le_of_ne both.1 both.2

theorem mem_fileNames_iff : name ∈ t.fileNames p ↔ ∃ c, t.get? (p ++ [name]) = some (.file c) := by
  rw [fileNames, List.mem_filterMap]
  constructor
  · rintro ⟨⟨other, _ | c⟩, mem, same⟩
    · cases same
    · cases same
      exact ⟨c, sound.mem_children_iff.mp mem⟩
  · rintro ⟨c, found⟩
    exact ⟨(name, .file c), sound.mem_children_iff.mpr found, rfl⟩

theorem mem_folderNames_iff : name ∈ t.folderNames p ↔ t.get? (p ++ [name]) = some .folder := by
  rw [folderNames, List.mem_filterMap]
  constructor
  · rintro ⟨⟨other, _ | c⟩, mem, same⟩
    · cases same
      exact sound.mem_children_iff.mp mem
    · cases same
  · intro found
    exact ⟨(name, .folder), sound.mem_children_iff.mpr found, rfl⟩

theorem ordered_fileNames (p : Place) : (t.fileNames p).Pairwise (· < ·) := by
  rw [fileNames, List.pairwise_filterMap]
  refine (sound.ordered_children p).imp ?_
  rintro ⟨a, _ | c⟩ ⟨b, _ | d⟩ less x first y second
  all_goals cases first
  all_goals cases second
  exact less

theorem ordered_folderNames (p : Place) : (t.folderNames p).Pairwise (· < ·) := by
  rw [folderNames, List.pairwise_filterMap]
  refine (sound.ordered_children p).imp ?_
  rintro ⟨a, _ | c⟩ ⟨b, _ | d⟩ less x first y second
  all_goals cases first
  all_goals cases second
  exact less

end Sound

end Names

end Tree

end GameData.Files
