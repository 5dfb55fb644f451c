import Mathlib
import GameData.Proofs.Batch.Surveys

/-!
What divides the sizes of chunks.

The numbers up to the largest of some positive numbers that divide all of them are the divisors of their greatest common
divisor. A job shows them for each mark, with the sizes of the chunks that are not empty. It fails at the first mark of
which all chunks are empty, where there is no largest number, and at no other mark.
-/
namespace GameData.Batch.Containers

open Filling Files Container

section Numbers

def divisorsOf (n : Nat) : List Nat := n.divisors.sort (· ≤ ·)

theorem mem_divisorsOf {n d : Nat} : d ∈ divisorsOf n ↔ d ∣ n ∧ n ≠ 0 := by
  rw [divisorsOf, Finset.mem_sort, Nat.mem_divisors]

theorem eq_divisorsOf {n : Nat} {ds : List Nat} (ordered : ds.Pairwise (· < ·)) (each : ∀ d, d ∈ ds ↔ d ∣ n ∧ n ≠ 0) :
    ds = divisorsOf n := by
  have same : ds.toFinset = n.divisors := by
    ext d
    rw [List.mem_toFinset, Nat.mem_divisors, each]
  rw [divisorsOf, ← same]
  exact ((List.toFinset_sort (· ≤ ·) (ordered.imp ne_of_lt)).mpr (ordered.imp le_of_lt)).symm

/-- A number is the largest of its divisors. -/
theorem getLast?_divisorsOf {n : Nat} (ne : n ≠ 0) : (divisorsOf n).getLast? = some n := by
  have mem : n ∈ divisorsOf n := mem_divisorsOf.mpr ⟨dvd_rfl, ne⟩
  obtain ⟨front, last, split⟩ := (List.eq_nil_or_concat' _).resolve_left (List.ne_nil_of_mem mem)
  have ordered : (divisorsOf n).Pairwise (· ≤ ·) := Finset.pairwise_sort _ _
  have below : last ≤ n := Nat.le_of_dvd (Nat.pos_of_ne_zero ne) (mem_divisorsOf.mp (by rw [split]; simp)).1
  rw [split] at mem ordered ⊢
  rw [List.getLast?_concat]
  rcases List.mem_append.mp mem with early | late
  · have above := (List.pairwise_append.mp ordered).2.2 n early last (List.mem_singleton_self _)
    rw [Nat.le_antisymm below above]
  · rw [List.mem_singleton.mp late]

def commonDivisor (numbers : List Int) : Nat := numbers.toFinset.gcd Int.natAbs

variable {numbers : List Int}

theorem dvd_commonDivisor {d : Nat} : d ∣ commonDivisor numbers ↔ ∀ n ∈ numbers, (d : Int) ∣ n := by
  rw [commonDivisor, Finset.dvd_gcd_iff]
  refine forall_congr' fun n => ?_
  rw [List.mem_toFinset, Int.natCast_dvd]

theorem commonDivisor_ne_zero (some : numbers ≠ []) (positive : ∀ n ∈ numbers, 0 < n) : commonDivisor numbers ≠ 0 := by
  obtain ⟨n, mem⟩ := List.exists_mem_of_ne_nil numbers some
  intro zero
  have less := positive n mem
  have none := Finset.gcd_eq_zero_iff.mp zero n (List.mem_toFinset.mpr mem)
  omega

/-- The search up to the largest number misses no common divisor, since each of them is at most as large. -/
theorem commonDivisors_eq (some : numbers ≠ []) (positive : ∀ n ∈ numbers, 0 < n) :
    commonDivisors numbers = .ok (divisorsOf (commonDivisor numbers)) := by
  cases largest : numbers.max? with
  | none => exact absurd (List.max?_eq_none_iff.mp largest) some
  | some most =>
      have mem := (List.max?_eq_some_iff.mp largest).1
      have ne := commonDivisor_ne_zero some positive
      rw [commonDivisors, largest]
      refine congrArg Except.ok (eq_divisorsOf ?_ fun d => ?_)
      · refine List.Pairwise.filter _ (List.pairwise_map.mpr ?_)
        exact List.pairwise_lt_range.imp Nat.succ_lt_succ
      · rw [and_iff_left ne, dvd_commonDivisor, List.mem_filter, List.mem_map, List.all_eq_true]
        simp only [beq_iff_eq, ← Int.dvd_iff_emod_eq_zero, List.mem_range]
        refine and_iff_right_of_imp fun divides => ⟨d - 1, ?_, ?_⟩
        · have small := Int.le_of_dvd (positive most mem) (divides most mem)
          have less := positive most mem
          omega
        · refine Nat.sub_add_cancel (Nat.pos_of_ne_zero ?_)
          rintro rfl
          exact ne (Nat.eq_zero_of_zero_dvd (dvd_commonDivisor.mpr divides))

theorem commonDivisors_nil : commonDivisors [] = .error (.value .emptyMaximum) := rfl

end Numbers

section Marks

/-- The sizes of the chunks with a mark that are not empty. -/
def sizesOf (heads : List Head) (mark : Bytes) : Finset Nat :=
  ((heads.filter (·.fourcc = mark)).map Head.size).toFinset.erase 0

/-- There are chunks with the mark, and all of them are empty. -/
def Hollow (heads : List Head) (mark : Bytes) : Prop :=
  (∃ h ∈ heads, h.fourcc = mark) ∧ ∀ h ∈ heads, h.fourcc = mark → h.size = 0

instance (heads : List Head) (mark : Bytes) : Decidable (Hollow heads mark) := inferInstanceAs (Decidable (_ ∧ _))

/-- The line for a mark: the divisors of the greatest common divisor of its sizes. -/
def line (heads : List Head) (mark : Bytes) : String :=
  Literal.ofBytes mark ++ " " ++ listLiteral ((divisorsOf ((sizesOf heads mark).gcd id)).map toString) ++ "\n"

variable {heads : List Head} {sizes : List (Bytes × SizeSet)} {mark : Bytes} {set : SizeSet}

theorem mem_sizesOf {n : Nat} : n ∈ sizesOf heads mark ↔ n ≠ 0 ∧ ∃ h ∈ heads, h.fourcc = mark ∧ h.size = n := by
  rw [sizesOf, Finset.mem_erase, List.mem_toFinset, List.mem_map]
  simp only [List.mem_filter, decide_eq_true_eq, and_assoc]

def sizeNumbers (set : SizeSet) : List Int := (set.toList.filter (· != 0)).map Int.ofNat

namespace Tallies

variable (tallies : Tallies heads sizes) (mem : (mark, set) ∈ sizes)
include tallies mem

theorem mem_filter_iff {n : Nat} : n ∈ set.toList.filter (· != 0) ↔ n ∈ sizesOf heads mark := by
  rw [List.mem_filter, tallies.members _ _ mem, mem_sizesOf, bne_iff_ne, and_comm]

theorem commonDivisor_sizeNumbers : commonDivisor (sizeNumbers set) = (sizesOf heads mark).gcd id := by
  have same : (sizeNumbers set).toFinset = (sizesOf heads mark).image Int.ofNat := by
    ext n
    rw [List.mem_toFinset, sizeNumbers, List.mem_map, Finset.mem_image]
    simp only [tallies.mem_filter_iff mem]
  rw [commonDivisor, same, Finset.gcd_image]
  rfl

theorem sizeNumbers_eq_nil_iff : sizeNumbers set = [] ↔ Hollow heads mark := by
  have occurs : ∃ h ∈ heads, h.fourcc = mark := tallies.mem_keys_iff.mp (List.mem_map.mpr ⟨_, mem, rfl⟩)
  rw [sizeNumbers, List.map_eq_nil_iff, List.eq_nil_iff_forall_not_mem, Hollow, and_iff_right occurs]
  simp only [tallies.mem_filter_iff mem, mem_sizesOf]
  constructor
  · intro none h there same
    by_contra size
    exact none h.size ⟨size, h, there, same, rfl⟩
  · rintro zero n ⟨size, h, there, same, rfl⟩
    exact size (zero h there same)

theorem commonDivisors_of_hollow (hollow : Hollow heads mark) :
    commonDivisors (sizeNumbers set) = .error (.value .emptyMaximum) := by
  rw [(tallies.sizeNumbers_eq_nil_iff mem).mpr hollow, commonDivisors_nil]

theorem commonDivisors_of_not_hollow (filled : ¬ Hollow heads mark) :
    commonDivisors (sizeNumbers set) = .ok (divisorsOf ((sizesOf heads mark).gcd id)) := by
  rw [commonDivisors_eq (mt (tallies.sizeNumbers_eq_nil_iff mem).mp filled), tallies.commonDivisor_sizeNumbers mem]
  intro n there
  obtain ⟨size, known, rfl⟩ := List.mem_map.mp there
  exact Int.natCast_pos.mpr (Nat.pos_of_ne_zero (bne_iff_ne.mp (List.mem_filter.mp known).2))

end Tallies

end Marks

section Reports

def showMark (x : Bytes × SizeSet) : Shell Unit := do
  let divisors ← attempt (commonDivisors (sizeNumbers x.2))
  Shell.say (Literal.ofBytes x.1 ++ " " ++ listLiteral (divisors.map toString))

theorem showDivisors_eq (r : Request) : showDivisors r = collectSizes r >>= fun sizes => sizes.forM showMark := rfl

def report (heads : List Head) (marks : List Bytes) : String := String.join (marks.map (line heads))

variable {heads : List Head} {sizes : List (Bytes × SizeSet)} {t : Tree}

namespace Tallies

variable (tallies : Tallies heads sizes)
include tallies

theorem fill_showMark {x : Bytes × SizeSet} (mem : x ∈ sizes) (filled : ¬ Hollow heads x.1) (out : String) :
    (showMark x).fill ⟨t, out⟩ = (.ok (), ⟨t, out ++ line heads x.1⟩) := by
  rw [showMark, tallies.commonDivisors_of_not_hollow mem filled, fill_bind_of_ok (fill_attempt _ _), line,
    ← String.append_assoc]
  rfl

theorem fill_showMark_of_hollow {x : Bytes × SizeSet} (mem : x ∈ sizes) (hollow : Hollow heads x.1) (out : String) :
    (showMark x).fill ⟨t, out⟩ = (.error (.value .emptyMaximum), ⟨t, out⟩) := by
  rw [showMark, tallies.commonDivisors_of_hollow mem hollow, fill_bind_of_error (fill_attempt _ _)]

/-- A line is shown for each mark as long as none of them is hollow. -/
theorem fill_forM {xs : List (Bytes × SizeSet)} (part : xs ⊆ sizes) (filled : ∀ x ∈ xs, ¬ Hollow heads x.1)
    (out : String) : (xs.forM showMark).fill ⟨t, out⟩ = (.ok (), ⟨t, out ++ report heads (xs.map Prod.fst)⟩) := by
  induction xs generalizing out with
  | nil =>
      rw [report, List.map_nil, List.map_nil, String.join_nil, String.append_empty]
      rfl
  | cons x xs ih =>
      obtain ⟨mem, part⟩ := List.cons_subset.mp part
      obtain ⟨first, others⟩ := List.forall_mem_cons.mp filled
      refine (fill_bind_of_ok (tallies.fill_showMark mem first out) _).trans ?_
      refine (ih part others _).trans ?_
      rw [report, report, List.map_cons, List.map_cons, String.join_cons, String.append_assoc]

theorem fill_forM_all (filled : ∀ mark ∈ marks heads, ¬ Hollow heads mark) (out : String) :
    (sizes.forM showMark).fill ⟨t, out⟩ = (.ok (), ⟨t, out ++ report heads (marks heads)⟩) := by
  rw [tallies.fill_forM (List.Subset.refl _) ?_ out, tallies.keys]
  intro x mem
  exact filled x.1 (tallies.keys ▸ List.mem_map_of_mem mem)

/-- The lines before the first hollow mark stay when it fails there. -/
theorem fill_forM_until {before after : List Bytes} {mark : Bytes} (split : marks heads = before ++ mark :: after)
    (filled : ∀ m ∈ before, ¬ Hollow heads m) (hollow : Hollow heads mark) (out : String) :
    (sizes.forM showMark).fill ⟨t, out⟩ = (.error (.value .emptyMaximum), ⟨t, out ++ report heads before⟩) := by
  rw [← tallies.keys] at split
  obtain ⟨front, rest, rfl, rfl, later⟩ := List.map_eq_append_iff.mp split
  obtain ⟨x, back, rfl, rfl, -⟩ := List.map_eq_cons_iff.mp later
  have part : front ⊆ front ++ x :: back := List.subset_append_left ..
  have shown := tallies.fill_forM (t := t) part (by simpa using filled) out
  refine (congrArg (Filling.fill · _) List.forM_append).trans ((fill_bind_of_ok shown _).trans ?_)
  exact fill_bind_of_error (tallies.fill_showMark_of_hollow (by simp) hollow _) _

end Tallies

/-- One of the marks is the first hollow one. -/
theorem exists_first_hollow {heads : List Head} {mark : Bytes} (hollow : Hollow heads mark) :
    ∃ before first after, marks heads = before ++ first :: after ∧ (∀ m ∈ before, ¬ Hollow heads m) ∧
      Hollow heads first := by
  cases search : (marks heads).find? (Hollow heads ·) with
  | none =>
      have none := List.find?_eq_none.mp search mark (mem_marks.mpr hollow.1)
      exact absurd (decide_eq_true hollow) none
  | some first =>
      obtain ⟨found, before, after, split, filled⟩ := List.find?_eq_some_iff_append.mp search
      exact ⟨before, first, after, split, by simpa using filled, of_decide_eq_true found⟩

/-- The common divisors of positive numbers are the divisors of the greatest one, which is the last of them. So the job
that shows what divides the sizes of chunks fails exactly when there is a mark of which all chunks are empty, and
otherwise it shows, for each mark in the order in which the marks first come, the divisors of the greatest common divisor
of the sizes that are not zero. When it fails, the marks before the first hollow one have been shown. -/
theorem showDivisors_lists_gcd_divisors :
    (∀ numbers : List Int, numbers ≠ [] → (∀ n ∈ numbers, 0 < n) →
      commonDivisors numbers = .ok ((numbers.toFinset.gcd Int.natAbs).divisors.sort (· ≤ ·)) ∧
      ((numbers.toFinset.gcd Int.natAbs).divisors.sort (· ≤ ·)).getLast? = some (numbers.toFinset.gcd Int.natAbs)) ∧
    ∀ (r : Request) (t : Tree) (files : List Content) (out : String), Surveys r t files →
      (((showDivisors r).fill ⟨t, out⟩).1 = .error (.value .emptyMaximum) ↔ ∃ mark, Hollow (headsIn files) mark) ∧
      ((¬ ∃ mark, Hollow (headsIn files) mark) →
        (showDivisors r).fill ⟨t, out⟩ = (.ok (), ⟨t, out ++ report (headsIn files) (marks (headsIn files))⟩)) ∧
      ∀ before mark after, marks (headsIn files) = before ++ mark :: after →
        (∀ m ∈ before, ¬ Hollow (headsIn files) m) → Hollow (headsIn files) mark →
        (showDivisors r).fill ⟨t, out⟩ =
          (.error (.value .emptyMaximum), ⟨t, out ++ report (headsIn files) before⟩) := by
  constructor
  · intro numbers some positive
    exact ⟨commonDivisors_eq some positive, getLast?_divisorsOf (commonDivisor_ne_zero some positive)⟩
  · intro r t files out surveys
    obtain ⟨sizes, collected, tallies⟩ := surveys.fill_collectSizes out
    rw [showDivisors_eq, fill_bind_of_ok collected]
    have all (none : ¬ ∃ mark, Hollow (headsIn files) mark) := tallies.fill_forM_all (t := t)
      (fun mark _ hollow => none ⟨mark, hollow⟩) out
    refine ⟨⟨?_, ?_⟩, all, fun before mark after split filled hollow => tallies.fill_forM_until split filled hollow out⟩
    · intro failed
      by_contra none
      rw [all none] at failed
      cases failed
    · rintro ⟨mark, hollow⟩
      obtain ⟨before, first, after, split, filled, hollow⟩ := exists_first_hollow hollow
      rw [tallies.fill_forM_until split filled hollow out]

def chunkSample (mark : String) (size : UInt8) : Content :=
  .raw (Bytes.ofText "ILFF" ++ [36 + size, 0, 0, 0, 4, 0, 0, 0, 0, 0, 0, 0] ++ Bytes.ofText "TYPE" ++
    Bytes.ofText mark ++ [size, 0, 0, 0, 4, 0, 0, 0, 16 + size, 0, 0, 0] ++ Bytes.zeros size.toNat)

/-- Three containers with chunks of one mark, one of them empty, and one with an empty chunk of another mark. -/
def filesSample : List Content :=
  [chunkSample "DATA" 8, chunkSample "DATA" 0, chunkSample "DATA" 12, chunkSample "VOID" 0]

def sizesSample : Tree :=
  ⟨(["in"], .folder) :: (["a", "b", "c", "d"].zip filesSample).map fun file => (["in", file.1], .file file.2)⟩

def sizesRequest (pattern : String) : Request := { source := some "in", filter := some pattern }

theorem walk_filesSample : filesSample.map walk =
    [([⟨Bytes.ofText "DATA", 8, 4, 24⟩], .ok ()), ([⟨Bytes.ofText "DATA", 0, 4, 16⟩], .ok ()),
     ([⟨Bytes.ofText "DATA", 12, 4, 28⟩], .ok ()), ([⟨Bytes.ofText "VOID", 0, 4, 16⟩], .ok ())] := by
  cbv

theorem surveys_sizesSample (pattern : String) {files : List Content}
    (chosen : files = sizesSample.chosen (Pattern.oneAccepts [pattern]) "in") (known : files ⊆ filesSample) :
    Surveys (sizesRequest pattern) sizesSample files where
  sound := ⟨by decide +kernel, by decide +kernel, by decide +kernel⟩
  asked := ⟨"in", pattern, rfl, rfl, chosen⟩
  walked := by
    intro c mem
    have walked := List.mem_map_of_mem (f := walk) (known mem)
    rw [walk_filesSample] at walked
    simp only [List.mem_cons, List.not_mem_nil, or_false] at walked
    rcases walked with same | same | same | same
    all_goals rw [same]

def headsSample : List Head :=
  [⟨Bytes.ofText "DATA", 8, 4, 24⟩, ⟨Bytes.ofText "DATA", 0, 4, 16⟩, ⟨Bytes.ofText "DATA", 12, 4, 28⟩]

theorem headsIn_filesSample : headsIn (filesSample.take 3) = headsSample ∧
    headsIn filesSample = headsSample ++ [⟨Bytes.ofText "VOID", 0, 4, 16⟩] := by
  have walked (files : List Content) : headsIn files = (files.map walk).flatMap Prod.fst :=
    (List.flatMap_map walk Prod.fst files).symm
  rw [walked, walked, List.map_take, walk_filesSample]
  exact ⟨rfl, rfl⟩

theorem not_hollow_headsSample : ¬ ∃ mark, Hollow headsSample mark := by
  rintro ⟨mark, ⟨h, mem, rfl⟩, zero⟩
  have same : h.fourcc = Bytes.ofText "DATA" := by
    have each : ∀ h ∈ headsSample, h.fourcc = Bytes.ofText "DATA" := by decide +kernel
    exact each h mem
  exact absurd (zero ⟨Bytes.ofText "DATA", 8, 4, 24⟩ List.mem_cons_self same.symm) (by decide)

theorem divisorsOf_four : divisorsOf 4 = [1, 2, 4] := by
  refine (eq_divisorsOf (by decide) fun d => ?_).symm
  have all : Nat.divisors 4 = {1, 2, 4} := by decide +kernel
  rw [← Nat.mem_divisors, all]
  simp

theorem report_of_gcd_four {heads : List Head} (gcd : (sizesOf heads (Bytes.ofText "DATA")).gcd id = 4) :
    report heads [Bytes.ofText "DATA"] = "b'DATA' [1, 2, 4]\n" := by
  rw [report, List.map_singleton, line, gcd, divisorsOf_four]
  decide +kernel

theorem showDivisors_lists_gcd_divisors_sizesSample :
    (commonDivisors [12, 8] = .ok [1, 2, 4] ∧ [1, 2, 4].getLast? = some 4) ∧
    Surveys (sizesRequest "[abc]") sizesSample (filesSample.take 3) ∧
    (showDivisors (sizesRequest "[abc]")).fill ⟨sizesSample, ""⟩ = (.ok (), ⟨sizesSample, "b'DATA' [1, 2, 4]\n"⟩) ∧
    Surveys (sizesRequest "*") sizesSample filesSample ∧
    (showDivisors (sizesRequest "*")).fill ⟨sizesSample, ""⟩ =
      (.error (.value .emptyMaximum), ⟨sizesSample, "b'DATA' [1, 2, 4]\n"⟩) := by
  have some := surveys_sizesSample "[abc]" (by decide +kernel) (List.take_subset 3 filesSample)
  have all := surveys_sizesSample "*" (by decide +kernel) (List.Subset.refl filesSample)
  obtain ⟨numbers, job⟩ := showDivisors_lists_gcd_divisors
  refine ⟨?_, some, ?_, all, ?_⟩
  · have gcd : ([12, 8] : List Int).toFinset.gcd Int.natAbs = 4 := by decide +kernel
    have listed := numbers [12, 8] (by decide) (by decide)
    rw [gcd, ← divisorsOf, divisorsOf_four] at listed
    exact listed
  · have shown := (job _ _ _ "" some).2.1
    rw [headsIn_filesSample.1] at shown
    have first : marks headsSample = [Bytes.ofText "DATA"] := by decide +kernel
    rw [shown not_hollow_headsSample, first, report_of_gcd_four (by decide +kernel), String.empty_append]
  · have failed := (job _ _ _ "" all).2.2 [Bytes.ofText "DATA"] (Bytes.ofText "VOID") []
    rw [headsIn_filesSample.2] at failed
    rw [failed (by decide +kernel) (by decide +kernel) (by decide +kernel), report_of_gcd_four (by decide +kernel),
      String.empty_append]

end Reports

end GameData.Batch.Containers
