import Mathlib
import GameData.Batch.Containers
import GameData.Proofs.Batch.Mirroring
import GameData.Proofs.Container.Progress
import GameData.Proofs.Container.SizeSets

/-!
Jobs that look at files and leave them as they are.

Such a job is a loop over what the chosen files hold. Going through containers in this way collects, for each mark in the
order in which the marks first come, the sizes of exactly the chunks that have it.
-/
namespace GameData

open Filling

namespace Files

def Entry.content? : Entry → Option Content
  | .folder => none
  | .file c => some c

/-- What the files below a path hold whose names agree, in the order of a walk. There are none below a path that leads
nowhere. -/
def Tree.chosen (t : Tree) (m : String → Bool) (src : String) : List Content :=
  match t.locate src with
  | .error _ => []
  | .ok S => (t.sources m S).filterMap fun rel => (t.get? (S ++ rel)).bind Entry.content?

theorem bind_content?_eq_some {e : Option Entry} {c : Content} : e.bind Entry.content? = some c ↔ e = some (.file c) := by
  rcases e with _ | _ | d <;> simp [Entry.content?]

theorem Tree.Sound.mem_chosen_iff {t : Tree} (sound : t.Sound) {m : String → Bool} {src : String} {S : Place}
    (way : t.locate src = .ok S) {c : Content} :
    c ∈ t.chosen m src ↔ ∃ rel, t.IsSource m S rel ∧ t.get? (S ++ rel) = some (.file c) := by
  rw [Tree.chosen, way]
  simp only [List.mem_filterMap, sound.mem_sources_iff, bind_content?_eq_some]

namespace Shell

open GameData.Files.Tree

variable {β : Type} {t : Tree} {m : String → Bool} {S : Place} {src : String} {visit : β → String → Shell β}
  {f : β → Content → β}

/-- Visits that only read make a loop over what the files hold. -/
theorem fill_foldlM_reading {rels : List Place} (sources : ∀ rel ∈ rels, t.IsSource m S rel) {out : String}
    (reads : ∀ rel ∈ rels, ∀ c, t.get? (S ++ rel) = some (.file c) →
      ∀ b, (visit b (pathBelow src rel)).fill ⟨t, out⟩ = (.ok (f b c), ⟨t, out⟩)) (b : β) :
    (rels.foldlM (fun b rel => visit b (pathBelow src rel)) b).fill ⟨t, out⟩ =
      (.ok ((rels.filterMap fun rel => (t.get? (S ++ rel)).bind Entry.content?).foldl f b), ⟨t, out⟩) := by
  induction rels generalizing b with
  | nil => rfl
  | cons rel rels ih =>
      obtain ⟨first, others⟩ := List.forall_mem_cons.mp sources
      obtain ⟨read, more⟩ := List.forall_mem_cons.mp reads
      obtain ⟨_, c, _, _, found⟩ := first
      rw [List.foldlM_cons, fill_bind_of_ok (read c found b), ih others more, List.filterMap_cons]
      simp only [bind_content?_eq_some.mpr found, List.foldl_cons]

theorem fill_foldFiles_reading (sound : t.Sound) {patterns : List String}
    (reads : ∀ c ∈ t.chosen (Pattern.oneAccepts patterns) src, ∀ path p out, t.locate path = .ok p →
      t.get? p = some (.file c) → ∀ b, (visit b path).fill ⟨t, out⟩ = (.ok (f b c), ⟨t, out⟩)) (b : β) (out : String) :
    (foldFiles src patterns b visit).fill ⟨t, out⟩ =
      (.ok ((t.chosen (Pattern.oneAccepts patterns) src).foldl f b), ⟨t, out⟩) := by
  cases way : t.locate src with
  | error e =>
      rw [foldFiles, foldFolders, fill_bind_of_ok (fill_tree _), foldFoldersIn, fill_bind_of_ok (fill_tree _), chosen, way]
      rfl
  | ok S =>
      have ne := ne_of_locate way
      have read {rel : Place} (source : t.IsSource (Pattern.oneAccepts patterns) S rel) {c : Content}
          (found : t.get? (S ++ rel) = some (.file c)) (b : β) (out : String) :
          (visit b (pathBelow src rel)).fill ⟨t, out⟩ = (.ok (f b c), ⟨t, out⟩) := by
        have mem := (sound.mem_chosen_iff way).mpr ⟨rel, source, found⟩
        exact reads c mem _ _ out (sound.locate_pathBelow ne way found) found b
      have spares : Spares (Pattern.oneAccepts patterns) S src t visit fun _ s => s.tree = t := by
        refine .of_steady sound (fun _ => rfl) ?_ ?_
        · rintro s rfl
          exact .refl _ S sound
        · rintro b rel ⟨_, out⟩ b' s' source rfl run
          obtain ⟨_, c, _, _, found⟩ := id source
          rw [read source found b out] at run
          cases run
          rfl
      have sources : ∀ rel ∈ t.sources (Pattern.oneAccepts patterns) S, t.IsSource (Pattern.oneAccepts patterns) S rel :=
        fun rel mem => sound.mem_sources_iff.mp mem
      rw [fill_foldFiles sound ne way spares, chosen, way]
      exact fill_foldlM_reading sources (fun rel mem c found b => read (sources rel mem) found b out) b

end Shell

end Files

namespace Batch

section Tables

variable {κ ν : Type} [BEq κ] [LawfulBEq κ] {key : κ} {first : ν} {f : ν → ν} {table : List (κ × ν)}

/-- A new key is the last one. -/
theorem map_fst_update (key : κ) (first : ν) (f : ν → ν) (table : List (κ × ν)) :
    (update key first f table).map Prod.fst =
      if key ∈ table.map Prod.fst then table.map Prod.fst else table.map Prod.fst ++ [key] := by
  induction table with
  | nil => rfl
  | cons x table ih =>
      obtain ⟨k, v⟩ := x
      rw [update]
      by_cases same : k = key
      · subst same
        rw [if_pos BEq.rfl, List.map_cons, List.map_cons, if_pos List.mem_cons_self]
      · have moved : key ∈ k :: table.map Prod.fst ↔ key ∈ table.map Prod.fst := by
          rw [List.mem_cons, or_iff_right (Ne.symm same)]
        rw [if_neg (mt eq_of_beq same), List.map_cons, ih, List.map_cons]
        by_cases there : key ∈ table.map Prod.fst
        · rw [if_pos there, if_pos (moved.mpr there)]
        · rw [if_neg there, if_neg (mt moved.mp there), List.cons_append]

/-- Only the value of the key changes. It comes from the value that was there or from the first one. -/
theorem mem_update (distinct : (table.map Prod.fst).Nodup) {k : κ} {v : ν} (mem : (k, v) ∈ update key first f table) :
    (k ≠ key ∧ (k, v) ∈ table) ∨ (k = key ∧ ∃ old, v = f old ∧
      ((key, old) ∈ table ∨ old = first ∧ key ∉ table.map Prod.fst)) := by
  induction table with
  | nil =>
      cases List.mem_singleton.mp mem
      exact .inr ⟨rfl, first, rfl, .inr ⟨rfl, List.not_mem_nil⟩⟩
  | cons x table ih =>
      obtain ⟨k', v'⟩ := x
      rw [List.map_cons, List.nodup_cons] at distinct
      obtain ⟨apart, distinct⟩ := distinct
      rw [update] at mem
      split at mem
      case isTrue same =>
        cases eq_of_beq same
        rcases List.mem_cons.mp mem with here | later
        · cases here
          exact .inr ⟨rfl, v', rfl, .inl List.mem_cons_self⟩
        · refine .inl ⟨?_, List.mem_cons_of_mem _ later⟩
          rintro rfl
          exact apart (List.mem_map.mpr ⟨_, later, rfl⟩)
      case isFalse other =>
        have ne : k' ≠ key := fun same => other (beq_iff_eq.mpr same)
        rcases List.mem_cons.mp mem with here | later
        · cases here
          exact .inl ⟨ne, List.mem_cons_self⟩
        · rcases ih distinct later with ⟨ne', old⟩ | ⟨same, old, changed, known | ⟨fresh, none⟩⟩
          · exact .inl ⟨ne', List.mem_cons_of_mem _ old⟩
          · exact .inr ⟨same, old, changed, .inl (List.mem_cons_of_mem _ known)⟩
          · refine .inr ⟨same, old, changed, .inr ⟨fresh, ?_⟩⟩
            rw [List.map_cons, List.mem_cons]
            exact not_or.mpr ⟨ne.symm, none⟩

end Tables

namespace Containers

open Files Container

/-- The marks of chunks, in the order in which they first come. -/
def marks (heads : List Head) : List Bytes := (heads.map Head.fourcc).eraseDups

theorem mem_marks {heads : List Head} {mark : Bytes} : mark ∈ marks heads ↔ ∃ h ∈ heads, h.fourcc = mark := by
  rw [marks, List.mem_eraseDups, List.mem_map]

theorem marks_concat (heads : List Head) (h : Head) :
    marks (heads ++ [h]) = if h.fourcc ∈ marks heads then marks heads else marks heads ++ [h.fourcc] := by
  have split : marks (heads ++ [h]) = marks heads ++ ([h.fourcc].removeAll (heads.map Head.fourcc)).eraseDups := by
    rw [marks, List.map_append, List.eraseDups_append]
    rfl
  rw [split]
  by_cases there : h.fourcc ∈ marks heads
  · have known := mem_marks.mp there
    rw [if_pos there]
    simp [List.removeAll, known]
  · have new := mt mem_marks.mpr there
    rw [if_neg there]
    simp [List.removeAll, new, List.eraseDups_cons]

def note (sizes : List (Bytes × SizeSet)) (h : Head) : List (Bytes × SizeSet) :=
  update h.fourcc {} (·.insert h.size) sizes

/-- The table has the marks of the chunks, and with each mark the sizes of the chunks that have it. -/
structure Tallies (heads : List Head) (sizes : List (Bytes × SizeSet)) : Prop where
  keys : sizes.map Prod.fst = marks heads
  distinct : (sizes.map Prod.fst).Nodup
  proper : ∀ mark set, (mark, set) ∈ sizes → set.Proper
  members : ∀ mark set, (mark, set) ∈ sizes → ∀ n, n ∈ set.toList ↔ ∃ h ∈ heads, h.fourcc = mark ∧ h.size = n

variable {heads : List Head} {sizes : List (Bytes × SizeSet)}

theorem tallies_nil : Tallies [] [] := ⟨rfl, List.nodup_nil, by simp, by simp⟩

theorem Tallies.mem_keys_iff (tallies : Tallies heads sizes) {mark : Bytes} :
    mark ∈ sizes.map Prod.fst ↔ ∃ h ∈ heads, h.fourcc = mark := by
  rw [tallies.keys, mem_marks]

/-- The set that a size is added to: the one of the mark, or an empty one for a new mark. -/
theorem Tallies.before (tallies : Tallies heads sizes) {mark : Bytes} {old : SizeSet}
    (known : (mark, old) ∈ sizes ∨ old = {} ∧ mark ∉ sizes.map Prod.fst) :
    old.Proper ∧ ∀ n, n ∈ old.toList ↔ ∃ h ∈ heads, h.fourcc = mark ∧ h.size = n := by
  rcases known with known | ⟨rfl, none⟩
  · exact ⟨tallies.proper _ _ known, tallies.members _ _ known⟩
  · refine ⟨SizeSet.proper_empty, fun n => iff_of_false List.not_mem_nil ?_⟩
    rintro ⟨h, mem, same, -⟩
    exact none (tallies.mem_keys_iff.mpr ⟨h, mem, same⟩)

theorem Tallies.note (tallies : Tallies heads sizes) {h : Head} (searchable : SizeSet.Searchable h.size) :
    Tallies (heads ++ [h]) (note sizes h) := by
  have keys : (Containers.note sizes h).map Prod.fst = marks (heads ++ [h]) := by
    rw [Containers.note, map_fst_update, tallies.keys, marks_concat]
  -- What was there with other marks, or the set of this mark with one size more.
  have entries {mark : Bytes} {set : SizeSet} (mem : (mark, set) ∈ Containers.note sizes h) :
      set.Proper ∧ ∀ n, n ∈ set.toList ↔ ∃ g ∈ heads ++ [h], g.fourcc = mark ∧ g.size = n := by
    rcases mem_update tallies.distinct mem with ⟨other, old⟩ | ⟨rfl, old, rfl, known⟩
    · refine ⟨tallies.proper _ _ old, fun n => ?_⟩
      rw [tallies.members _ _ old]
      simp [or_and_right, exists_or, Ne.symm other]
    · obtain ⟨proper, members⟩ := tallies.before known
      obtain ⟨proper, inserted⟩ := proper.insert searchable
      refine ⟨proper, fun n => ?_⟩
      rw [inserted, members]
      simp [or_and_right, exists_or, or_comm, eq_comm]
  refine ⟨keys, ?_, fun _ _ mem => (entries mem).1, fun _ _ mem => (entries mem).2⟩
  rw [Containers.note, map_fst_update]
  split
  · exact tallies.distinct
  · rename_i new
    rw [← List.concat_eq_append]
    exact tallies.distinct.concat new

theorem Tallies.foldl (tallies : Tallies heads sizes) {more : List Head}
    (searchable : ∀ h ∈ more, SizeSet.Searchable h.size) : Tallies (heads ++ more) (more.foldl Containers.note sizes) := by
  induction more generalizing heads sizes with
  | nil =>
      rw [List.append_nil]
      exact tallies
  | cons h more ih =>
      obtain ⟨first, others⟩ := List.forall_mem_cons.mp searchable
      rw [List.append_cons]
      exact ih (tallies.note first) others

def walk (c : Content) : List Head × Except Fault Unit := Walk.heads { data := c.bytes, kind := .disk }

def headsIn (files : List Content) : List Head := files.flatMap fun c => (walk c).1

/-- The size of a chunk is a word of the file. -/
theorem searchable_of_mem {files : List Content} {h : Head} (mem : h ∈ headsIn files) : SizeSet.Searchable h.size := by
  obtain ⟨c, -, mem⟩ := List.mem_flatMap.mp mem
  obtain ⟨-, read, -⟩ := Walk.trace_ascends { data := c.bytes, kind := .disk }
  rw [Walk.trace_snd] at read
  obtain ⟨start, -, rfl⟩ := List.mem_map.mp (read.subset mem)
  exact Nat.lt_trans (headAt_size_lt _ start) (by norm_num)

/-- The request goes through files that are containers, each of which can be walked to its end. -/
structure Surveys (r : Request) (t : Tree) (files : List Content) : Prop where
  sound : t.Sound
  asked : ∃ src pattern, r.source = some src ∧ r.filter = some pattern ∧
    files = t.chosen (Pattern.oneAccepts [pattern]) src
  walked : ∀ c ∈ files, (walk c).2 = .ok ()

theorem fill_readHeads {s : Session} {path : String} {p : Place} {c : Content} (way : s.tree.locate path = .ok p)
    (found : s.tree.get? p = some (.file c)) (walked : (walk c).2 = .ok ()) :
    (readHeads path).fill s = (.ok (walk c).1, s) := by
  rw [readHeads, fill_bind_of_ok (Shell.readBytes_of_file way found)]
  change (attempt (walk c).2 >>= fun _ => pure (walk c).1 : Shell (List Head)).fill s = _
  rw [walked]
  rfl

/-- The sizes are collected from all chunks of all files. -/
theorem Surveys.fill_collectSizes {r : Request} {t : Tree} {files : List Content} (surveys : Surveys r t files)
    (out : String) :
    ∃ sizes, (collectSizes r).fill ⟨t, out⟩ = (.ok sizes, ⟨t, out⟩) ∧ Tallies (headsIn files) sizes := by
  obtain ⟨sound, ⟨src, pattern, source, filter, rfl⟩, walked⟩ := surveys
  refine ⟨(headsIn _).foldl Containers.note [], ?_, tallies_nil.foldl fun h mem => searchable_of_mem mem⟩
  have first : r.sourceFolder.fill ⟨t, out⟩ = (.ok src, ⟨t, out⟩) := by
    rw [Request.sourceFolder, source, Request.fill_need]
  have second : r.pattern.fill ⟨t, out⟩ = (.ok pattern, ⟨t, out⟩) := by
    rw [Request.pattern, filter, Request.fill_need]
  rw [collectSizes, Request.foldFiltered, fill_bind_of_ok first, fill_bind_of_ok second,
    Shell.fill_foldFiles_reading (f := fun sizes c => (walk c).1.foldl Containers.note sizes) sound, headsIn,
    List.foldl_flatMap]
  intro c mem path p out way found sizes
  rw [fill_bind_of_ok (fill_readHeads way found (walked c mem))]
  rfl

end Containers

end Batch

end GameData
