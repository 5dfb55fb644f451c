import Mathlib
import GameData.Text.Words

/-!
Words as runs of printable characters.

A run is a stretch of printable characters with nothing printable on either side. The search goes through the data once
and takes a run for a word when a character after it ends it. Main statement: the words are the runs of two characters
or more that end before the data does, in their order; so one is missing exactly when the last two characters are
printable.
-/
namespace GameData.Words

def printableAt (data : Bytes) (i : Nat) : Bool := data[i]?.any isPrintable

structure Span where
  start : Nat
  stop : Nat
  deriving DecidableEq

namespace Span

def length (s : Span) : Nat := s.stop - s.start

def text (data : Bytes) (s : Span) : Bytes := data.slice s.start s.length

@[simp] theorem length_mk (start n : Nat) : length ⟨start, start + n⟩ = n := Nat.add_sub_cancel_left ..

end Span

/-- Printable characters that cannot be extended to either side. -/
structure IsRun (data : Bytes) (s : Span) : Prop where
  filled : s.start < s.stop
  printable : ∀ i, s.start ≤ i → i < s.stop → printableAt data i = true
  before : s.start = 0 ∨ printableAt data (s.start - 1) = false
  after : printableAt data s.stop = false

/-- The words are the texts of the stretches that meet a condition, in their order and each of them once. -/
def Lists (data : Bytes) (holds : Span → Prop) (words : List Bytes) : Prop :=
  ∃ spans : List Span, spans.Pairwise (fun s t => s.start < t.start) ∧ (∀ s, s ∈ spans ↔ holds s) ∧
    words = spans.map (Span.text data)

section Lists

variable {data : Bytes} {holds holds' : Span → Prop} {words : List Bytes}

theorem Lists.congr (lists : Lists data holds words) (same : ∀ s, holds s ↔ holds' s) : Lists data holds' words := by
  obtain ⟨spans, ordered, each, texts⟩ := lists
  exact ⟨spans, ordered, fun s => (each s).trans (same s), texts⟩

theorem Lists.cons (lists : Lists data holds words) {s : Span} (first : ∀ t, holds t → s.start < t.start) :
    Lists data (fun t => t = s ∨ holds t) (s.text data :: words) := by
  obtain ⟨spans, ordered, each, rfl⟩ := lists
  refine ⟨s :: spans, List.pairwise_cons.mpr ⟨?_, ordered⟩, ?_, rfl⟩
  · intro t mem
    exact first t ((each t).mp mem)
  · intro t
    rw [List.mem_cons, each]

/-- Words cannot list one stretch more than they list. -/
theorem Lists.not_more (lists : Lists data holds words) (more : Lists data holds' words)
    (weaker : ∀ s, holds s → holds' s) {s : Span} (extra : holds' s) : holds s := by
  obtain ⟨spans, ordered, each, rfl⟩ := lists
  obtain ⟨spans', ordered', each', same⟩ := more
  have distinct : spans.Nodup := by
    refine ordered.imp ?_
    rintro s t less rfl
    exact Nat.lt_irrefl _ less
  have subset : spans ⊆ spans' := by
    intro t mem
    exact (each' t).mpr (weaker t ((each t).mp mem))
  have lengths : spans'.length = spans.length := by
    have mapped := congrArg List.length same
    rw [List.length_map, List.length_map] at mapped
    exact mapped.symm
  have perm : spans.Perm spans' := (distinct.subperm subset).perm_of_length_le lengths.le
  exact (each s).mp (perm.mem_iff.mpr ((each' s).mpr extra))

end Lists

section Search

/-- A run of a least length that ends before the data does. -/
def Ended (least : Nat) (data : Bytes) (s : Span) : Prop := IsRun data s ∧ least ≤ s.length ∧ s.stop < data.length

/-- A run that the search has read into, and what is left behind it. -/
structure Reading (data : Bytes) (start : Nat) (run rest : Bytes) : Prop where
  within : start ≤ data.length
  ahead : data.drop start = run.reverse ++ rest
  printable : ∀ b ∈ run, isPrintable b = true
  before : start = 0 ∨ printableAt data (start - 1) = false

namespace Reading

variable {data run rest : Bytes} {start : Nat} {b : UInt8}

theorem at_place (reading : Reading data start run rest) (i : Nat) :
    data[start + i]? = (run.reverse ++ rest)[i]? := by
  rw [← reading.ahead, List.getElem?_drop]

theorem printable_run (reading : Reading data start run rest) {i : Nat} (low : start ≤ i)
    (inside : i < start + run.length) : printableAt data i = true := by
  obtain ⟨k, rfl⟩ := Nat.exists_eq_add_of_le low
  have less : k < run.reverse.length := by
    rw [List.length_reverse]
    omega
  rw [printableAt, reading.at_place, List.getElem?_append_left less, List.getElem?_eq_getElem less, Option.any_some]
  exact reading.printable _ (List.mem_reverse.mp (List.getElem_mem less))

theorem at_next (reading : Reading data start run (b :: rest)) : data[start + run.length]? = some b := by
  rw [reading.at_place, List.getElem?_append_right (by simp)]
  simp

theorem length_eq (reading : Reading data start run rest) : data.length = start + run.length + rest.length := by
  have ahead := congrArg List.length reading.ahead
  rw [List.length_drop, List.length_append, List.length_reverse] at ahead
  have within := reading.within
  omega

theorem text_run (reading : Reading data start run rest) :
    Span.text data ⟨start, start + run.length⟩ = run.reverse := by
  rw [Span.text, Bytes.slice, Span.length_mk, reading.ahead, ← List.length_reverse, List.take_left]

theorem extend (reading : Reading data start run (b :: rest)) (printable : isPrintable b = true) :
    Reading data start (b :: run) rest where
  within := reading.within
  ahead := by rw [reading.ahead, List.reverse_cons, List.append_assoc, List.singleton_append]
  printable := List.forall_mem_cons.mpr ⟨printable, reading.printable⟩
  before := reading.before

theorem after (reading : Reading data start run (b :: rest)) (other : isPrintable b = false) :
    printableAt data (start + run.length) = false := by
  rw [printableAt, reading.at_next]
  exact other

theorem leave (reading : Reading data start run (b :: rest)) (other : isPrintable b = false) :
    Reading data (start + run.length + 1) [] rest where
  within := by
    rw [reading.length_eq, List.length_cons]
    omega
  ahead := by
    have length : run.length = run.reverse.length := List.length_reverse.symm
    rw [Nat.add_assoc, ← List.drop_drop, reading.ahead, length, List.drop_length_add_append, List.drop_one,
      List.tail_cons, List.reverse_nil, List.nil_append]
  printable := List.forall_mem_nil _
  before := by
    rw [Nat.add_sub_cancel]
    exact .inr (reading.after other)

/-- A run that starts here ends before the character that is not printable. -/
theorem eq_of_isRun (reading : Reading data start run (b :: rest)) (other : isPrintable b = false) {s : Span}
    (isRun : IsRun data s) (low : start ≤ s.start) (here : s.start < start + run.length + 1) :
    s = ⟨start, start + run.length⟩ := by
  have next := reading.after other
  obtain ⟨filled, printable, before, after⟩ := isRun
  obtain ⟨first, stop⟩ := s
  dsimp only at filled printable before after low here
  -- The next character is outside the run, so the run starts and stops before it.
  have outside : first < start + run.length ∧ stop ≤ start + run.length := by
    by_contra reaches
    have inside := printable (start + run.length) (by omega) (by omega)
    rw [next] at inside
    cases inside
  have starts : first = start := by
    by_contra later
    have earlier := reading.printable_run (show start ≤ first - 1 by omega) (by omega)
    rcases before with zero | edge
    · omega
    · rw [edge] at earlier
      cases earlier
  have stops : stop = start + run.length := by
    by_contra short
    have inside := reading.printable_run (show start ≤ stop by omega) (by omega)
    rw [after] at inside
    cases inside
  rw [starts, stops]

theorem isRun (reading : Reading data start run rest) (some : 0 < run.length)
    (after : printableAt data (start + run.length) = false) : IsRun data ⟨start, start + run.length⟩ where
  filled := Nat.lt_add_of_pos_right some
  printable _ low inside := reading.printable_run low inside
  before := reading.before
  after := after

/-- The runs from here on are the one that is read, if it is long enough, and those behind it. -/
theorem ended_iff {least : Nat} (pos : 0 < least) (reading : Reading data start run (b :: rest))
    (other : isPrintable b = false) (s : Span) : start ≤ s.start ∧ Ended least data s ↔
      (s = ⟨start, start + run.length⟩ ∧ least ≤ run.length) ∨ (start + run.length + 1 ≤ s.start ∧ Ended least data s) := by
  constructor
  · rintro ⟨low, ended⟩
    by_cases here : s.start < start + run.length + 1
    · have same := reading.eq_of_isRun other ended.1 low here
      have long := ended.2.1
      rw [same, Span.length_mk] at long
      exact .inl ⟨same, long⟩
    · exact .inr ⟨Nat.not_lt.mp here, ended⟩
  · rintro (⟨rfl, long⟩ | ⟨behind, ended⟩)
    · refine ⟨le_rfl, reading.isRun (pos.trans_le long) (reading.after other), ?_, ?_⟩
      · rw [Span.length_mk]
        exact long
      · rw [reading.length_eq, List.length_cons]
        dsimp only
        omega
    · exact ⟨by omega, ended⟩

theorem lists {least : Nat} (pos : 0 < least) (reading : Reading data start run rest) :
    Lists data (fun s => start ≤ s.start ∧ Ended least data s) (search least run rest) := by
  induction rest generalizing start run with
  | nil =>
      refine ⟨[], .nil, fun s => ⟨fun mem => absurd mem List.not_mem_nil, ?_⟩, rfl⟩
      rintro ⟨low, isRun, -, stops⟩
      -- What follows a run is not printable, but everything up to the end is.
      have inside := reading.printable_run (low.trans isRun.filled.le) (reading.length_eq ▸ stops)
      rw [isRun.after] at inside
      cases inside
  | cons b rest ih =>
      rw [search]
      by_cases printable : isPrintable b = true
      · rw [if_pos printable]
        exact ih (reading.extend printable)
      · have other : isPrintable b = false := Bool.eq_false_iff.mpr printable
        have later := ih (reading.leave other)
        have first : ∀ t : Span, start + run.length + 1 ≤ t.start ∧ Ended least data t → start < t.start := by
          rintro t ⟨behind, -⟩
          omega
        rw [if_neg printable]
        by_cases long : least ≤ run.length
        · rw [if_pos long, ← reading.text_run]
          refine (later.cons first).congr fun s => ?_
          rw [reading.ended_iff pos other, and_iff_left long]
        · rw [if_neg long]
          refine later.congr fun s => ?_
          rw [reading.ended_iff pos other, or_iff_right fun both => long both.2]

/-- The search comes to the end of the data with some run, that may be empty. -/
theorem exists_last (reading : Reading data start run rest) : ∃ start' run', Reading data start' run' [] := by
  induction rest generalizing start run with
  | nil => exact ⟨start, run, reading⟩
  | cons b rest ih =>
      by_cases printable : isPrintable b = true
      · exact ih (reading.extend printable)
      · exact ih (reading.leave (Bool.eq_false_iff.mpr printable))

end Reading

theorem reading_start (data : Bytes) : Reading data 0 [] data := ⟨Nat.zero_le _, rfl, List.forall_mem_nil _, .inl rfl⟩

end Search

section Ends

def EndsPrintable (data : Bytes) : Prop :=
  2 ≤ data.length ∧ printableAt data (data.length - 1) = true ∧ printableAt data (data.length - 2) = true

instance (data : Bytes) : Decidable (EndsPrintable data) := inferInstanceAs (Decidable (_ ∧ _ ∧ _))

variable {data : Bytes} {s : Span}

/-- Printable characters at the end of the data are the end of a run. -/
theorem exists_last_run (ends : EndsPrintable data) : ∃ s, IsRun data s ∧ 2 ≤ s.length ∧ s.stop = data.length := by
  obtain ⟨two, last, before⟩ := ends
  obtain ⟨start, run, reading⟩ := (reading_start data).exists_last
  have length : data.length = start + run.length := reading.length_eq
  -- The place before the run is neither the last one nor the one before it.
  have long : 2 ≤ run.length := by
    by_contra short
    have place : start - 1 = data.length - 1 ∨ start - 1 = data.length - 2 := by omega
    rcases reading.before with zero | edge
    · omega
    · rcases place with place | place
      · rw [place, last] at edge
        cases edge
      · rw [place, before] at edge
        cases edge
  have after : printableAt data (start + run.length) = false := by
    rw [← length, printableAt, List.getElem?_eq_none le_rfl, Option.any_none]
  refine ⟨⟨start, start + run.length⟩, reading.isRun (by omega) after, ?_, length.symm⟩
  rw [Span.length_mk]
  exact long

/-- A run of two characters or more that goes on to the end takes up the last two. -/
theorem IsRun.endsPrintable (isRun : IsRun data s) (long : 2 ≤ s.length) (last : s.stop = data.length) :
    EndsPrintable data := by
  rw [Span.length] at long
  refine ⟨by omega, isRun.printable _ (by omega) (by omega), isRun.printable _ (by omega) (by omega)⟩

theorem IsRun.stop_le (isRun : IsRun data s) : s.stop ≤ data.length := by
  have filled := isRun.filled
  by_contra beyond
  have inside := isRun.printable (s.stop - 1) (by omega) (by omega)
  rw [printableAt, List.getElem?_eq_none (by omega)] at inside
  cases inside

/-- The words in data are the runs of at least two characters that do not go on to its end. They are all the runs of at
least two characters exactly when the last two characters of the data are not both printable. -/
theorem find_lists_runs_iff (data : Bytes) : ∃ words, find {} data = .ok words ∧
    Lists data (fun s => IsRun data s ∧ 2 ≤ s.length ∧ s.stop < data.length) words ∧
    (Lists data (fun s => IsRun data s ∧ 2 ≤ s.length) words ↔ ¬ EndsPrintable data) := by
  have ended : Lists data (Ended 2 data) (search 2 [] data) := by
    refine ((reading_start data).lists Nat.two_pos).congr fun s => ?_
    rw [and_iff_right (Nat.zero_le _)]
  have weaker : ∀ s, Ended 2 data s → IsRun data s ∧ 2 ≤ s.length := fun s holds => ⟨holds.1, holds.2.1⟩
  refine ⟨search 2 [] data, rfl, ended, ?_, ?_⟩
  · intro all ends
    obtain ⟨s, isRun, long, last⟩ := exists_last_run ends
    exact absurd last (ended.not_more all weaker ⟨isRun, long⟩).2.2.ne
  · intro open_
    refine ended.congr fun s => ⟨weaker s, ?_⟩
    rintro ⟨isRun, long⟩
    refine ⟨isRun, long, isRun.stop_le.lt_of_ne ?_⟩
    intro last
    exact open_ (isRun.endsPrintable long last)

/-- Of three characters, all of them printable, none is in a word, though they are a run. -/
theorem no_word_at_end : find {} [0x61, 0x62, 0x63] = .ok [] ∧ IsRun [0x61, 0x62, 0x63] ⟨0, 3⟩ ∧
    ¬ Lists [0x61, 0x62, 0x63] (fun s => IsRun [0x61, 0x62, 0x63] s ∧ 2 ≤ s.length) [] := by
  have isRun : IsRun [0x61, 0x62, 0x63] ⟨0, 3⟩ := by
    refine ⟨by decide, ?_, .inl rfl, by decide⟩
    intro i _ inside
    interval_cases i <;> decide
  refine ⟨by decide, isRun, ?_⟩
  rintro ⟨spans, -, each, none⟩
  have mem := (each ⟨0, 3⟩).mpr ⟨isRun, by decide⟩
  rw [List.map_eq_nil_iff.mp none.symm] at mem
  cases mem

end Ends

end GameData.Words
